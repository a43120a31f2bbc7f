import IntLang.Node

/-!
# Drawing trees

A tree is drawn one line a node, parents above their children. The drawing of a child hangs below
its parent's line by a branch: `+-- ` for the last child, `|-- ` for the others; the lines below it
go on with four blanks or with the trunk `|   `.

* `Node.drawing` is the list of lines, `Node.draw` their text;
* `Program.draw` draws nothing for an empty program.
-/

namespace IntLang

/-! ## Hanging drawings below a line -/

/-- A drawing behind a branch. -/
def hang (isLast : Bool) : List UnitText → List UnitText
  | [] => []
  | line :: lines =>
    (Text.units (if isLast then "+-- " else "|-- ") ++ line) ::
      lines.map (Text.units (if isLast then "    " else "|   ") ++ ·)

/-- Drawings one below the other, the last on the last branch. -/
def hangAll : List (List UnitText) → List UnitText
  | [] => []
  | [drawing] => hang true drawing
  | drawing :: drawings => hang false drawing ++ hangAll drawings

namespace Node

/-! ## Drawings -/

mutual

def drawing : Node → List UnitText
  | number value => ["NUM (" ++ toString value ++ ")"]
  | var name => ["ID (" ++ name ++ ")"]
  | assign name value => ("ASSIGN (=) " ++ name) :: hangAll [value.drawing]
  | negate operand => "OP (neg)" :: hangAll [operand.drawing]
  | binary op left right => ("OP (" ++ op.text ++ ")") :: hangAll [left.drawing, right.drawing]
  | declare name none => ["DECL (" ++ name ++ ")"]
  | declare name (some initial) => ("DECL (" ++ name ++ ")") :: hangAll [initial.drawing]
  | print value => "PRINT (Expr)" :: hangAll [value.drawing]
  | printText text => ["PRINT (String): " ++ text]
  | branch condition yes none =>
    "IF" :: hangAll [condition.drawing, "BLOCK" :: hangAll (drawings yes)]
  | branch condition yes (some no) =>
    "IF" :: hangAll
      [condition.drawing, "BLOCK" :: hangAll (drawings yes), "ELSE" :: hangAll (drawings no)]
  | block statements => "BLOCK" :: hangAll (drawings statements)
  -- A parser makes no unknown node but a number without a value.
  | unknown _ => ["NUM (NaN)"]

def drawings : List Node → List (List UnitText)
  | [] => []
  | node :: nodes => node.drawing :: drawings nodes

end

def draw (node : Node) : UnitText := [unit '\n'].intercalate node.drawing

end Node

def Program.draw (program : Program) : UnitText :=
  if program.isEmpty then [] else (Node.block program).draw

end IntLang
