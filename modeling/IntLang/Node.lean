import IntLang.Json

/-!
# Syntax trees

One type holds all nodes of a program, wherever they stand: the parser puts every node in its place,
but a tree may also come from elsewhere, with nodes out of place or of unknown kinds. Names and texts stay
in units.

* `Node.json` is the exchange form of a tree.
-/

namespace IntLang

/-! ## Operators -/

inductive BinaryOp where
  | add | sub | mul | div | eq | ne | lt | gt | le | ge
  deriving DecidableEq, Repr

namespace BinaryOp

def all : List BinaryOp := [add, sub, mul, div, eq, ne, lt, gt, le, ge]

def text : BinaryOp → String
  | add => "+"
  | sub => "-"
  | mul => "*"
  | div => "/"
  | eq => "=="
  | ne => "!="
  | lt => "<"
  | gt => ">"
  | le => "<="
  | ge => ">="

def ofText? (s : String) : Option BinaryOp := all.find? fun op => op.text == s

end BinaryOp

/-! ## Nodes -/

inductive Node where
  | number (value : Int)
  | var (name : UnitText)
  | assign (name : UnitText) (value : Node)
  | negate (operand : Node)
  | binary (op : BinaryOp) (left right : Node)
  | declare (name : UnitText) (initial : Option Node)
  | print (value : Node)
  /-- The text is a string literal with its quotes. -/
  | printText (text : UnitText)
  | branch (condition : Node) (yes : List Node) (no : Option (List Node))
  | block (statements : List Node)
  /-- A node of no known kind, in its exchange form. -/
  | unknown (content : Json)
  deriving Inhabited, Repr

/-- The statements of a program, in the order of their execution. -/
abbrev Program := List Node

namespace Node

/-! ## Exchange form -/

/-- An object whose kind is named; members stand in the order of their keys. -/
def tagged (before : List (UnitText × Json)) (kind : String) (behind : List (UnitText × Json)) : Json :=
  .object (before ++ (Text.units "kind", Json.string kind) :: behind)

mutual

def json : Node → Json
  | number value => tagged [] "Number" [("value", .ofInt value)]
  | var name => tagged [] "Identifier" [("name", .string name)]
  | assign name value => tagged [] "Assign" [("name", .string name), ("value", value.json)]
  | negate operand => tagged [] "BinOp" [("left", operand.json), ("op", .string "neg")]
  | binary op left right =>
    tagged [] "BinOp" [("left", left.json), ("op", .string op.text), ("right", right.json)]
  | declare name none => tagged [("init", .null)] "Decl" [("name", .string name)]
  | declare name (some initial) => tagged [("init", initial.json)] "Decl" [("name", .string name)]
  | print value => tagged [] "Print" [("value", value.json)]
  | printText text => tagged [] "PrintString" [("text", .string text)]
  | branch condition yes none =>
    tagged [("condition", condition.json), ("else", .null)] "If" [("then", listJson yes)]
  | branch condition yes (some no) =>
    tagged [("condition", condition.json), ("else", listJson no)] "If" [("then", listJson yes)]
  | block statements => listJson statements
  | unknown content => content

def listJson (statements : List Node) : Json :=
  tagged [] "StatementList" [("statements", .array (jsons statements))]

def jsons : List Node → List Json
  | [] => []
  | node :: nodes => node.json :: jsons nodes

end

end Node

end IntLang
