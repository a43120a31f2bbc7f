import IntLang.Proofs.Syntax.Words

/-!
# What nodes inherit from words

Some properties of words pass to all that is made of them, whatever the order of reading.

* `Carried`: a property of expressions, one of statements and one of their lists that every rule of
  making preserves;
* **`Carried.program`**: so they hold of every program made of good words.
-/

namespace IntLang

/-- Properties that every rule of making preserves, from words to expressions, statements and lists. -/
structure Carried (good : Word → Prop) (E S : Node → Prop) (L : List Node → Prop) : Prop where
  number {w : Word} (hk : w.kind = .number) (hw : good w) : E (Parse.numberNode w.value)
  var {w : Word} (hk : w.kind = .ident) (hw : good w) : E (.var w.value)
  assign {w : Word} {value : Node} (hk : w.kind = .ident) (hw : good w) (hv : E value) :
    E (.assign w.value value)
  negate {operand : Node} (h : E operand) : E (.negate operand)
  binary {op : BinaryOp} {left right : Node} (hl : E left) (hr : E right) : E (.binary op left right)
  declare {w : Word} (hk : w.kind = .ident) (hw : good w) : S (.declare w.value none)
  initial {w : Word} {value : Node} (hk : w.kind = .ident) (hw : good w) (hv : E value) :
    S (.declare w.value (some value))
  print {value : Node} (hv : E value) : S (.print value)
  printText {w : Word} (hk : w.kind = .string) (hw : good w) : S (.printText w.value)
  branch {condition : Node} {yes : List Node} (hc : E condition) (hy : L yes) :
    S (.branch condition yes none)
  branchElse {condition : Node} {yes no : List Node} (hc : E condition) (hy : L yes) (hn : L no) :
    S (.branch condition yes (some no))
  bare {value : Node} (hv : E value) : S value
  nil : L []
  cons {node : Node} {nodes : List Node} (h : S node) (hs : L nodes) : L (node :: nodes)

/-! ## Chains -/

namespace Chain

variable {E : Node → Prop}

/-- All operands of a chain, which `Chain.tree` only joins. -/
def All (E : Node → Prop) (c : Chain) : Prop := E c.first ∧ ∀ p ∈ c.more, E p.2

theorem all_joinFrom (binary : ∀ {op left right}, E left → E right → E (.binary op left right))
    (level : Level) {left : Node} {more : List (BinaryOp × Node)} (hl : E left)
    (hm : ∀ p ∈ more, E p.2) : (joinFrom level left more).All E := by
  induction more generalizing left with
  | nil => exact ⟨hl, by simp [joinFrom]⟩
  | cons p more ih =>
    obtain ⟨op, right⟩ := p
    obtain ⟨hr, hm⟩ := List.forall_mem_cons.mp hm
    simp only [joinFrom]
    split
    · exact ih (binary hl hr) hm
    · exact ⟨hl, List.forall_mem_cons.mpr (ih hr hm)⟩

theorem All.tree {c : Chain} (h : c.All E)
    (binary : ∀ {op left right}, E left → E right → E (.binary op left right)) : E c.tree := by
  have join (level : Level) {c : Chain} (h : c.All E) : (c.join level).All E :=
    all_joinFrom binary level h.1 h.2
  exact (join _ (join _ (join _ h))).1

end Chain

namespace Carried

variable {good : Word → Prop} {E S : Node → Prop} {L : List Node → Prop}

theorem chain (hc : Carried good E S L) {u : List Word} {c : Chain} (h : MakesChain u c)
    (hu : ∀ w ∈ u, good w) : c.All E := by
  revert hu
  refine @MakesChain.rec (fun u c _ => (∀ w ∈ u, good w) → c.All E)
    (fun v more _ => (∀ w ∈ v, good w) → ∀ p ∈ more, E p.2)
    ?negate ?number ?name ?assign ?group ?stop ?more u c h
  case negate =>
    intro w u c _ _ ih hu
    obtain ⟨hf, hm⟩ := ih (List.forall_mem_cons.mp hu).2
    exact ⟨hc.negate hf, hm⟩
  case number =>
    intro w v more hw _ ih hu
    obtain ⟨hg, hv⟩ := List.forall_mem_cons.mp hu
    exact ⟨hc.number hw hg, ih hv⟩
  case name =>
    intro w v more hw _ ih hu
    obtain ⟨hg, hv⟩ := List.forall_mem_cons.mp hu
    exact ⟨hc.var hw hg, ih hv⟩
  case assign =>
    intro w e u c hw _ _ ih hu
    obtain ⟨hg, hu⟩ := List.forall_mem_cons.mp hu
    exact ⟨hc.assign hw hg ((ih (List.forall_mem_cons.mp hu).2).tree hc.binary), by simp⟩
  case group =>
    intro l r u v c more _ _ _ _ ih iht hu
    simp only [List.cons_append, List.forall_mem_cons, List.forall_mem_append] at hu
    exact ⟨(ih hu.2.1).tree hc.binary, iht hu.2.2.2⟩
  case stop => simp
  case more =>
    intro w op u c _ _ ih hu
    exact List.forall_mem_cons.mpr (ih (List.forall_mem_cons.mp hu).2)

/-! ## Programs -/

/-- **What holds of all words holds of the program that is made of them.** -/
theorem program (hc : Carried good E S L) {u : List Word} {nodes : List Node}
    (h : MakesProgram u nodes) (hu : ∀ w ∈ u, good w) : L nodes := by
  have tree {u : List Word} {c : Chain} (h : MakesChain u c) (hu : ∀ w ∈ u, good w) : E c.tree :=
    (hc.chain h hu).tree hc.binary
  revert hu
  refine @MakesProgram.rec (fun u node _ => (∀ w ∈ u, good w) → S node)
    (fun u nodes _ => (∀ w ∈ u, good w) → L nodes) (fun u nodes _ => (∀ w ∈ u, good w) → L nodes)
    ?declare ?initial ?print ?printText ?branch ?branchElse ?bare ?braces ?nil ?cons u nodes h
  case declare =>
    intro w n s _ hn _ hu
    exact hc.declare hn (hu n (by simp))
  case initial =>
    intro w n e s u c _ hn _ h _ hu
    exact hc.initial hn (hu n (by simp)) (tree h fun w hw => hu w (by simp [hw]))
  case print =>
    intro w l r s u c _ _ h _ _ hu
    exact hc.print (tree h fun w hw => hu w (by simp [hw]))
  case printText =>
    intro w l t r s _ _ ht _ _ hu
    exact hc.printText ht (hu t (by simp))
  case branch =>
    intro w l r u v c yes _ _ h _ _ ihy hu
    exact hc.branch (tree h fun w hw => hu w (by simp [hw])) (ihy fun w hw => hu w (by simp [hw]))
  case branchElse =>
    intro w l r e u v v' c yes no _ _ h _ _ _ _ ihy ihn hu
    exact hc.branchElse (tree h fun w hw => hu w (by simp [hw]))
      (ihy fun w hw => hu w (by simp [hw])) (ihn fun w hw => hu w (by simp [hw]))
  case bare =>
    intro s u c h _ hu
    exact hc.bare (tree h fun w hw => hu w (by simp [hw]))
  case braces =>
    intro l r u nodes _ _ _ ih hu
    exact ih fun w hw => hu w (by simp [hw])
  case nil =>
    intro _
    exact hc.nil
  case cons =>
    intro u v node nodes _ _ ih ihs hu
    obtain ⟨hu, hv⟩ := List.forall_mem_append.mp hu
    exact hc.cons (ih hu) (ihs hv)

end Carried

end IntLang
