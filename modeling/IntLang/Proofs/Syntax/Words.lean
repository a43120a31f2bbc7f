import IntLang.Parse.Statement
import IntLang.Proofs.Names.Walk

/-!
# What words make

Where a token stands matters in messages only: what is read hangs on its kind and its value, which
are its word. `MakesChain`, `MakesStatement` and `MakesProgram` say which words make which parts of a
program, without looking ahead and without an order of reading.

* a name in front of `=` starts an assignment that takes all words of the chain;
* `MakesChain.head`, `MakesStatement.head`: which kinds of words they start with.
-/

namespace IntLang

/-- A token without its place. -/
structure Word where
  kind : TokenKind
  value : UnitText
  deriving DecidableEq, Repr

def Token.word (t : Token) : Word := ⟨t.kind, t.value⟩

@[simp] theorem Token.kind_word (t : Token) : t.word.kind = t.kind := rfl

@[simp] theorem Token.value_word (t : Token) : t.word.value = t.value := rfl

/-! ## Chains -/

mutual

inductive MakesChain : List Word → Chain → Prop
  | negate {w : Word} {u : List Word} {c : Chain} (hw : w.kind = .minus) (h : MakesChain u c) :
    MakesChain (w :: u) { c with first := .negate c.first }
  | number {w : Word} {v : List Word} {more : List (BinaryOp × Node)} (hw : w.kind = .number)
    (h : MakesTail v more) : MakesChain (w :: v) ⟨Parse.numberNode w.value, more⟩
  | name {w : Word} {v : List Word} {more : List (BinaryOp × Node)} (hw : w.kind = .ident)
    (h : MakesTail v more) : MakesChain (w :: v) ⟨.var w.value, more⟩
  | assign {w e : Word} {u : List Word} {c : Chain} (hw : w.kind = .ident) (he : e.kind = .assign)
    (h : MakesChain u c) : MakesChain (w :: e :: u) ⟨.assign w.value c.tree, []⟩
  | group {l r : Word} {u v : List Word} {c : Chain} {more : List (BinaryOp × Node)}
    (hl : l.kind = .lparen) (h : MakesChain u c) (hr : r.kind = .rparen) (ht : MakesTail v more) :
    MakesChain (l :: u ++ r :: v) ⟨c.tree, more⟩

/-- What may follow an operand. -/
inductive MakesTail : List Word → List (BinaryOp × Node) → Prop
  | stop : MakesTail [] []
  | more {w : Word} {op : BinaryOp} {u : List Word} {c : Chain} (hw : w.kind.binary? = some op)
    (h : MakesChain u c) : MakesTail (w :: u) ((op, c.first) :: c.more)

end

/-! ## Statements -/

mutual

inductive MakesStatement : List Word → Node → Prop
  | declare {w n s : Word} (hw : w.kind = .int) (hn : n.kind = .ident) (hs : s.kind = .semi) :
    MakesStatement [w, n, s] (.declare n.value none)
  | initial {w n e s : Word} {u : List Word} {c : Chain} (hw : w.kind = .int)
    (hn : n.kind = .ident) (he : e.kind = .assign) (h : MakesChain u c) (hs : s.kind = .semi) :
    MakesStatement (w :: n :: e :: u ++ [s]) (.declare n.value (some c.tree))
  | print {w l r s : Word} {u : List Word} {c : Chain} (hw : w.kind = .print)
    (hl : l.kind = .lparen) (h : MakesChain u c) (hr : r.kind = .rparen) (hs : s.kind = .semi) :
    MakesStatement (w :: l :: u ++ [r, s]) (.print c.tree)
  | printText {w l t r s : Word} (hw : w.kind = .print) (hl : l.kind = .lparen)
    (ht : t.kind = .string) (hr : r.kind = .rparen) (hs : s.kind = .semi) :
    MakesStatement [w, l, t, r, s] (.printText t.value)
  | branch {w l r : Word} {u v : List Word} {c : Chain} {yes : List Node} (hw : w.kind = .ifWord)
    (hl : l.kind = .lparen) (h : MakesChain u c) (hr : r.kind = .rparen) (hy : MakesBlock v yes) :
    MakesStatement (w :: l :: u ++ r :: v) (.branch c.tree yes none)
  | branchElse {w l r e : Word} {u v v' : List Word} {c : Chain} {yes no : List Node}
    (hw : w.kind = .ifWord) (hl : l.kind = .lparen) (h : MakesChain u c) (hr : r.kind = .rparen)
    (hy : MakesBlock v yes) (he : e.kind = .elseWord) (hn : MakesBlock v' no) :
    MakesStatement (w :: l :: u ++ r :: v ++ e :: v') (.branch c.tree yes (some no))
  | bare {s : Word} {u : List Word} {c : Chain} (h : MakesChain u c) (hs : s.kind = .semi) :
    MakesStatement (u ++ [s]) c.tree

inductive MakesBlock : List Word → List Node → Prop
  | braces {l r : Word} {u : List Word} {nodes : List Node} (hl : l.kind = .lbrace)
    (h : MakesProgram u nodes) (hr : r.kind = .rbrace) : MakesBlock (l :: u ++ [r]) nodes

inductive MakesProgram : List Word → List Node → Prop
  | nil : MakesProgram [] []
  | cons {u v : List Word} {node : Node} {nodes : List Node} (h : MakesStatement u node)
    (hs : MakesProgram v nodes) : MakesProgram (u ++ v) (node :: nodes)

end

/-! ## First words -/

variable {u : List Word} {c : Chain} {node : Node}

/-- A chain starts with a sign, a number, a name or a parenthesis. -/
theorem MakesChain.head (h : MakesChain u c) :
    ∃ w u', u = w :: u' ∧ w.kind ∈ [TokenKind.minus, .number, .ident, .lparen] := by
  cases h with
  | negate hw | number hw | name hw | assign hw => exact ⟨_, _, rfl, by simp [hw]⟩
  | group hl => exact ⟨_, _, rfl, by simp [hl]⟩

theorem MakesStatement.head (h : MakesStatement u node) :
    ∃ w u', u = w :: u' ∧
      w.kind ∈ [TokenKind.minus, .number, .ident, .lparen, .int, .print, .ifWord] := by
  cases h with
  | declare hw | initial hw | print hw | printText hw | branch hw | branchElse hw =>
    exact ⟨_, _, rfl, by simp [hw]⟩
  | bare hc =>
    obtain ⟨w, u', rfl, hw⟩ := hc.head
    exact ⟨w, u' ++ _, rfl, by revert hw; simp +contextual [or_imp]⟩

end IntLang
