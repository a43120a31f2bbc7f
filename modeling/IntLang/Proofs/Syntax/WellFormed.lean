import IntLang.Proofs.Scanning.Lexemes

/-!
# Well-formed programs

A tree may have nodes out of place, numbers too large and names that are none. A well-formed program
has every node in its place, writes only what can be scanned, and no scope refuses its names.

* `IsExpression`, `IsStatement`, `AreStatements`: nodes in their places;
* `Program.WellFormed`: in addition, each name is declared once, before its first use.
-/

namespace IntLang

inductive IsExpression : Node → Prop
  | number {n : Nat} (hn : n ≤ maxNumber) : IsExpression (.number n)
  | var {name : UnitText} (hn : IsIdentifier name) : IsExpression (.var name)
  | assign {name : UnitText} {value : Node} (hn : IsIdentifier name) (hv : IsExpression value) :
    IsExpression (.assign name value)
  | negate {operand : Node} (h : IsExpression operand) : IsExpression (.negate operand)
  | binary {op : BinaryOp} {left right : Node} (hl : IsExpression left) (hr : IsExpression right) :
    IsExpression (.binary op left right)

mutual

inductive IsStatement : Node → Prop
  | declare {name : UnitText} (hn : IsIdentifier name) : IsStatement (.declare name none)
  | initial {name : UnitText} {value : Node} (hn : IsIdentifier name) (hv : IsExpression value) :
    IsStatement (.declare name (some value))
  | print {value : Node} (hv : IsExpression value) : IsStatement (.print value)
  | printText {text : UnitText} (ht : IsLiteral text) : IsStatement (.printText text)
  | branch {condition : Node} {yes : List Node} (hc : IsExpression condition)
    (hy : AreStatements yes) : IsStatement (.branch condition yes none)
  | branchElse {condition : Node} {yes no : List Node} (hc : IsExpression condition)
    (hy : AreStatements yes) (hn : AreStatements no) : IsStatement (.branch condition yes (some no))
  | bare {value : Node} (hv : IsExpression value) : IsStatement value

inductive AreStatements : List Node → Prop
  | nil : AreStatements []
  | cons {node : Node} {nodes : List Node} (h : IsStatement node) (hs : AreStatements nodes) :
    AreStatements (node :: nodes)

end

/-- Nodes in their places, names declared once and before their use. -/
structure Program.WellFormed (program : Program) : Prop where
  statements : AreStatements program
  names : (program.walk .empty).1 = none

end IntLang
