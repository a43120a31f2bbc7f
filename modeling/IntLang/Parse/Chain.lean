import IntLang.Node
import IntLang.Token

/-!
# Chains of operands

An expression is read as a chain: operands with binary operators between them. Precedence comes in
afterwards: `Chain.tree` joins operands around the multiplicative operators first, then around the
additive ones, then around the comparisons, each time from left to right.
-/

namespace IntLang

/-- How tightly a binary operator binds. -/
inductive Level where
  | comparison | additive | multiplicative
  deriving DecidableEq, Repr

def BinaryOp.level : BinaryOp → Level
  | .mul | .div => .multiplicative
  | .add | .sub => .additive
  | .eq | .ne | .lt | .gt | .le | .ge => .comparison

def TokenKind.binary? : TokenKind → Option BinaryOp
  | plus => some .add
  | minus => some .sub
  | star => some .mul
  | slash => some .div
  | eq => some .eq
  | ne => some .ne
  | lt => some .lt
  | gt => some .gt
  | le => some .le
  | ge => some .ge
  | _ => none

/-- A first operand, and further ones behind their operators. -/
structure Chain where
  first : Node
  more : List (BinaryOp × Node)
  deriving Repr

namespace Chain

/-- Joins neighbours around the operators of one level, from left to right. -/
def joinFrom (level : Level) (left : Node) : List (BinaryOp × Node) → Chain
  | [] => ⟨left, []⟩
  | (op, right) :: more =>
    if op.level = level then joinFrom level (.binary op left right) more
    else
      let behind := joinFrom level right more
      ⟨left, (op, behind.first) :: behind.more⟩

def join (level : Level) (c : Chain) : Chain := joinFrom level c.first c.more

/-- The tree of a chain. -/
def tree (c : Chain) : Node :=
  (((c.join .multiplicative).join .additive).join .comparison).first

end Chain

end IntLang
