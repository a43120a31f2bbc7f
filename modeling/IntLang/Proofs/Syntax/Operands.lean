import IntLang.Proofs.Syntax.Grammar
import IntLang.Proofs.Syntax.Precedence

/-!
# Expressions by their operands

An operand is a run of signs in front of a number, a name, a group or an assignment. An assignment takes
all words up to the end of its expression, so it is the last operand there. The tree of an expression
splits its operands at the last operator of the loosest level.

* `PrimaryOf`, `OperandOf`, `ChainOf`: which words are operands, and which are operands with operators
  between them;
* `ExpressionOf`: the tree of the words;
* `ProgramOf`: the words of a program, with any relation for its expressions;
* **`parse_ofTokens_split`**: given tokens are parsed to the program whose expressions are split, and
  to no other.
-/

namespace IntLang

/-! ## Expressions -/

mutual

/-- An operand without signs. The flag says that it takes all words up to the end. -/
inductive PrimaryOf : List Word → Bool → Node → Prop
  | number {w : Word} (hw : w.kind = .number) : PrimaryOf [w] false (Parse.numberNode w.value)
  | name {w : Word} (hw : w.kind = .ident) : PrimaryOf [w] false (.var w.value)
  | group {l r : Word} {u : List Word} {c : Chain} (hl : l.kind = .lparen) (h : ChainOf u c)
    (hr : r.kind = .rparen) : PrimaryOf (l :: u ++ [r]) false c.split
  | assign {w e : Word} {u : List Word} {c : Chain} (hw : w.kind = .ident) (he : e.kind = .assign)
    (h : ChainOf u c) : PrimaryOf (w :: e :: u) true (.assign w.value c.split)

/-- A run of signs and what they stand in front of: each sign is a node. -/
inductive OperandOf : List Word → Bool → Node → Prop
  | signed {signs u : List Word} {greedy : Bool} {node : Node} (hs : ∀ w ∈ signs, w.kind = .minus)
    (h : PrimaryOf u greedy node) :
    OperandOf (signs ++ u) greedy (signs.foldr (fun _ operand => .negate operand) node)

/-- Operands with binary operators between them. -/
inductive ChainOf : List Word → Chain → Prop
  | last {u : List Word} {greedy : Bool} {node : Node} (h : OperandOf u greedy node) :
    ChainOf u ⟨node, []⟩
  | more {u v : List Word} {w : Word} {op : BinaryOp} {node : Node} {c : Chain}
    (h : OperandOf u false node) (hw : w.kind.binary? = some op) (hc : ChainOf v c) :
    ChainOf (u ++ w :: v) (.splice ⟨node, []⟩ op c)

end

/-- The words of an expression and its tree. -/
def ExpressionOf (u : List Word) (node : Node) : Prop := ∃ c, ChainOf u c ∧ c.split = node

theorem PrimaryOf.operand {u : List Word} {greedy : Bool} {node : Node} (h : PrimaryOf u greedy node) :
    OperandOf u greedy node := .signed (List.forall_mem_nil _) h

theorem OperandOf.negate {w : Word} {u : List Word} {greedy : Bool} {node : Node}
    (hw : w.kind = .minus) (h : OperandOf u greedy node) :
    OperandOf (w :: u) greedy (.negate node) := by
  obtain ⟨hs, h⟩ := h
  exact .signed (List.forall_mem_cons.mpr ⟨hw, hs⟩) h

/-- A sign in front of a chain belongs to its first operand. -/
theorem ChainOf.negate {w : Word} {u : List Word} {c : Chain} (hw : w.kind = .minus)
    (h : ChainOf u c) : ChainOf (w :: u) { c with first := .negate c.first } := by
  cases h with
  | last h => exact .last (h.negate hw)
  | more h hop hc => exact .more (h.negate hw) hop hc

theorem chainOf_of_makesChain {u : List Word} {c : Chain} (h : MakesChain u c) : ChainOf u c := by
  refine @MakesChain.rec (fun u c _ => ChainOf u c)
    (fun v more _ => ∀ {u node}, OperandOf u false node → ChainOf (u ++ v) ⟨node, more⟩)
    ?negate ?number ?name ?assign ?group ?stop ?more u c h
  case negate => exact fun hw _ ih => ih.negate hw
  case number => exact fun hw _ ih => ih (PrimaryOf.number hw).operand
  case name => exact fun hw _ ih => ih (PrimaryOf.name hw).operand
  case assign =>
    intro w e u c hw he _ ih
    rw [c.tree_eq_split]
    exact .last (PrimaryOf.assign hw he ih).operand
  case group =>
    intro l r u v c more hl _ hr _ ih iht
    rw [c.tree_eq_split]
    simpa using iht (PrimaryOf.group hl ih hr).operand
  case stop =>
    intro u node h
    simpa using ChainOf.last h
  case more => exact fun hw _ ih u node h => .more h hw ih

/-- The words of an operand, in front of what may follow it. -/
def LeadsChain (u : List Word) (greedy : Bool) (node : Node) : Prop :=
  ∀ {v more}, MakesTail v more → (greedy = true → v = []) → MakesChain (u ++ v) ⟨node, more⟩

theorem makesChain_of_chainOf {u : List Word} {c : Chain} (h : ChainOf u c) : MakesChain u c := by
  refine @ChainOf.rec (fun u greedy node _ => LeadsChain u greedy node)
    (fun u greedy node _ => LeadsChain u greedy node) (fun u c _ => MakesChain u c)
    ?number ?name ?group ?assign ?signed ?last ?more u c h
  case number => exact fun hw _ _ ht _ => .number hw ht
  case name => exact fun hw _ _ ht _ => .name hw ht
  case group =>
    intro l r u c hl _ hr ih v more ht _
    rw [← c.tree_eq_split]
    simpa using MakesChain.group hl ih hr ht
  case assign =>
    intro w e u c hw he _ ih v more ht hv
    obtain rfl := hv rfl
    cases ht
    rw [← c.tree_eq_split, List.append_nil]
    exact .assign hw he ih
  case signed =>
    intro signs u greedy node hs _ ih v more ht hv
    induction signs with
    | nil => exact ih ht hv
    | cons w signs ihs =>
      obtain ⟨hw, hs⟩ := List.forall_mem_cons.mp hs
      exact .negate hw (ihs hs)
  case last =>
    intro u greedy node _ ih
    simpa using ih .stop fun _ => rfl
  case more =>
    intro u v w op node c _ hw _ ih ihc
    exact ih (.more hw ihc) nofun

theorem makesChain_iff {u : List Word} {c : Chain} : MakesChain u c ↔ ChainOf u c :=
  ⟨chainOf_of_makesChain, makesChain_of_chainOf⟩

/-! ## Programs -/

section

variable (E : List Word → Node → Prop)

mutual

/-- The words of a statement, where `E` tells the tree of an expression. -/
inductive StatementOf : List Word → Node → Prop
  | declare {w n s : Word} (hw : w.kind = .int) (hn : n.kind = .ident) (hs : s.kind = .semi) :
    StatementOf [w, n, s] (.declare n.value none)
  | initial {w n e s : Word} {u : List Word} {value : Node} (hw : w.kind = .int)
    (hn : n.kind = .ident) (he : e.kind = .assign) (h : E u value) (hs : s.kind = .semi) :
    StatementOf (w :: n :: e :: u ++ [s]) (.declare n.value (some value))
  | print {w l r s : Word} {u : List Word} {value : Node} (hw : w.kind = .print)
    (hl : l.kind = .lparen) (h : E u value) (hr : r.kind = .rparen) (hs : s.kind = .semi) :
    StatementOf (w :: l :: u ++ [r, s]) (.print value)
  | printText {w l t r s : Word} (hw : w.kind = .print) (hl : l.kind = .lparen)
    (ht : t.kind = .string) (hr : r.kind = .rparen) (hs : s.kind = .semi) :
    StatementOf [w, l, t, r, s] (.printText t.value)
  | branch {w l r : Word} {u v : List Word} {condition : Node} {yes : List Node}
    (hw : w.kind = .ifWord) (hl : l.kind = .lparen) (h : E u condition) (hr : r.kind = .rparen)
    (hy : BlockOf v yes) : StatementOf (w :: l :: u ++ r :: v) (.branch condition yes none)
  | branchElse {w l r e : Word} {u v v' : List Word} {condition : Node} {yes no : List Node}
    (hw : w.kind = .ifWord) (hl : l.kind = .lparen) (h : E u condition) (hr : r.kind = .rparen)
    (hy : BlockOf v yes) (he : e.kind = .elseWord) (hn : BlockOf v' no) :
    StatementOf (w :: l :: u ++ r :: v ++ e :: v') (.branch condition yes (some no))
  | bare {s : Word} {u : List Word} {value : Node} (h : E u value) (hs : s.kind = .semi) :
    StatementOf (u ++ [s]) value

inductive BlockOf : List Word → List Node → Prop
  | braces {l r : Word} {u : List Word} {nodes : List Node} (hl : l.kind = .lbrace)
    (h : ProgramOf u nodes) (hr : r.kind = .rbrace) : BlockOf (l :: u ++ [r]) nodes

inductive ProgramOf : List Word → List Node → Prop
  | nil : ProgramOf [] []
  | cons {u v : List Word} {node : Node} {nodes : List Node} (h : StatementOf u node)
    (hs : ProgramOf v nodes) : ProgramOf (u ++ v) (node :: nodes)

end

end

theorem expressionOf_of_makesChain {u : List Word} {c : Chain} (h : MakesChain u c) :
    ExpressionOf u c.tree := ⟨c, makesChain_iff.mp h, c.tree_eq_split.symm⟩

theorem exists_makesChain {u : List Word} {node : Node} (h : ExpressionOf u node) :
    ∃ c, MakesChain u c ∧ c.tree = node := by
  obtain ⟨c, h, rfl⟩ := h
  exact ⟨c, makesChain_iff.mpr h, c.tree_eq_split⟩

theorem programOf_of_makesProgram {u : List Word} {nodes : List Node} (h : MakesProgram u nodes) :
    ProgramOf ExpressionOf u nodes := by
  refine @MakesProgram.rec (fun u node _ => StatementOf ExpressionOf u node)
    (fun u nodes _ => BlockOf ExpressionOf u nodes) (fun u nodes _ => ProgramOf ExpressionOf u nodes)
    ?declare ?initial ?print ?printText ?branch ?branchElse ?bare ?braces ?nil ?cons u nodes h
  case declare => exact .declare
  case initial => exact fun hw hn he h hs => .initial hw hn he (expressionOf_of_makesChain h) hs
  case print => exact fun hw hl h hr hs => .print hw hl (expressionOf_of_makesChain h) hr hs
  case printText => exact .printText
  case branch => exact fun hw hl h hr _ hy => .branch hw hl (expressionOf_of_makesChain h) hr hy
  case branchElse =>
    exact fun hw hl h hr _ he _ hy hn =>
      .branchElse hw hl (expressionOf_of_makesChain h) hr hy he hn
  case bare => exact fun h hs => .bare (expressionOf_of_makesChain h) hs
  case braces => exact fun hl _ hr h => .braces hl h hr
  case nil => exact .nil
  case cons => exact fun _ _ h hs => .cons h hs

theorem makesProgram_of_programOf {u : List Word} {nodes : List Node}
    (h : ProgramOf ExpressionOf u nodes) : MakesProgram u nodes := by
  refine @ProgramOf.rec ExpressionOf (fun u node _ => MakesStatement u node)
    (fun u nodes _ => MakesBlock u nodes) (fun u nodes _ => MakesProgram u nodes)
    ?declare ?initial ?print ?printText ?branch ?branchElse ?bare ?braces ?nil ?cons u nodes h
  case declare => exact .declare
  case initial =>
    intro w n e s u value hw hn he h hs
    obtain ⟨c, hc, rfl⟩ := exists_makesChain h
    exact .initial hw hn he hc hs
  case print =>
    intro w l r s u value hw hl h hr hs
    obtain ⟨c, hc, rfl⟩ := exists_makesChain h
    exact .print hw hl hc hr hs
  case printText => exact .printText
  case branch =>
    intro w l r u v condition yes hw hl h hr _ hy
    obtain ⟨c, hc, rfl⟩ := exists_makesChain h
    exact .branch hw hl hc hr hy
  case branchElse =>
    intro w l r e u v v' condition yes no hw hl h hr _ he _ hy hn
    obtain ⟨c, hc, rfl⟩ := exists_makesChain h
    exact .branchElse hw hl hc hr hy he hn
  case bare =>
    intro s u value h hs
    obtain ⟨c, hc, rfl⟩ := exists_makesChain h
    exact .bare hc hs
  case braces => exact fun hl _ hr h => .braces hl h hr
  case nil => exact .nil
  case cons => exact fun _ _ h hs => .cons h hs

theorem makesProgram_iff {u : List Word} {nodes : List Node} :
    MakesProgram u nodes ↔ ProgramOf ExpressionOf u nodes :=
  ⟨programOf_of_makesProgram, makesProgram_of_programOf⟩

/-- **Given tokens are parsed to the program whose expressions are split.** Tokens give a program just
when it is the program of the words in front of the end of input, each expression with the tree that
splitting gives it, and the scope refuses none of its names; words have no more than one such
program. -/
theorem parse_ofTokens_split (ts : List Token) (scope : Scope) :
    (∀ program, (parse (.ofTokens ts) scope).1 = .ok program ↔
      ProgramOf ExpressionOf (Token.words ts) program ∧ (program.walk scope).1 = none) ∧
    ∀ program program', ProgramOf ExpressionOf (Token.words ts) program →
      ProgramOf ExpressionOf (Token.words ts) program' → program = program' := by
  have read {program : Program} (h : ProgramOf ExpressionOf (Token.words ts) program) :
      (TokenSource.ofTokens ts).read = .ok program := (makesProgram_iff.mpr h).read_ofTokens
  refine ⟨fun program => ⟨fun h => ?_, fun ⟨h, hw⟩ => ?_⟩, fun program program' h h' => ?_⟩
  · obtain ⟨rest, hy⟩ := exists_yields_of_parse h
    obtain ⟨hm, hs⟩ := Parse.makesProgram_of_yields hy
    exact ⟨makesProgram_iff.mp hm, congrArg Prod.fst hs⟩
  · rw [parse_of_read (read h), ← Prod.eta (program.walk scope), hw]
  · exact Except.ok.inj ((read h).symm.trans (read h'))

end IntLang
