import IntLang.Main
import IntLang.Proofs.Syntax.Complete
import IntLang.Proofs.Names.SinglePass
import IntLang.Proofs.Syntax.Grammar
import IntLang.Proofs.Scanning.Lexemes
import IntLang.Proofs.Syntax.WellFormed
import IntLang.Proofs.CUnit.Names
import IntLang.Proofs.CUnit.Words
import IntLang.Proofs.Names.Rename
import IntLang.Proofs.CUnit.RoundTrip
import IntLang.Proofs.Scanning.Tokens
import IntLang.Proofs.Syntax.Scanned
import IntLang.Proofs.Names.Blocks
import IntLang.Proofs.CUnit.Blocks
import IntLang.Proofs.Syntax.Precedence
import IntLang.Proofs.Syntax.Operands
import IntLang.Proofs.Reading.Lookahead
import IntLang.Proofs.Syntax.Lookahead
import IntLang.Proofs.Scanning.Tiles
import IntLang.Proofs.Syntax.Laziness
import IntLang.Proofs.Syntax.ViablePrefix
import IntLang.Proofs.Syntax.Declarations
import IntLang.Proofs.Syntax.Numbers
import IntLang.Proofs.Reading.Fails
import IntLang.Proofs.Syntax.Failure
import IntLang.Proofs.Reading.Alike
import IntLang.Proofs.Syntax.Places
import IntLang.Proofs.Scanning.LineFeed
import IntLang.Proofs.Syntax.Front
import IntLang.Proofs.Compilation.Accepted
import IntLang.Proofs.Compilation.Session
import IntLang.Proofs.Scanning.Layout
import IntLang.Proofs.Scanning.LongestMatch
import IntLang.Proofs.Compilation.Layout
import IntLang.Proofs.Compilation.Messages
import IntLang.Proofs.Compilation.Numbers
import IntLang.Proofs.Files.Standing
import IntLang.Proofs.Files.Grafts
import IntLang.Proofs.Files.Directories
import IntLang.Proofs.Files.Kept
import IntLang.Proofs.Files.Names
import IntLang.Proofs.Files.Parts
import IntLang.Proofs.Project.Machines
import IntLang.Proofs.Project.Kept
import IntLang.Proofs.Project.Paths
import IntLang.Proofs.Project.Loading
import IntLang.Proofs.Project.Settings
import IntLang.Proofs.Project.Steps
import IntLang.Proofs.Project.Separation
import IntLang.Proofs.Project.Conduct
import IntLang.Proofs.Project.Untouched
import IntLang.Proofs.Project.Agreement
import IntLang.Proofs.Project.Repeated
import IntLang.Proofs.Project.Endings
import IntLang.Proofs.Project.Reports
import IntLang.Proofs.Project.Copying
import IntLang.Proofs.Project.Nested
import IntLang.Proofs.Project.Creation
import IntLang.Proofs.Project.Placeholders
import IntLang.Proofs.Drawing.Shapes
import IntLang.Proofs.Drawing.Decoder
import IntLang.Proofs.Project.Standard
import IntLang.Proofs.Syntax.Pulls
import IntLang.Proofs.CUnit.Misplaced
import IntLang.Proofs.Drawing.Connectors
import IntLang.Proofs.CUnit.Depth
import IntLang.Proofs.Names.History
import IntLang.Proofs.Scanning.Further
import IntLang.Proofs.Project.Series
