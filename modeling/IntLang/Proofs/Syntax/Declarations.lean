import IntLang.Proofs.Names.Blocks
import IntLang.Proofs.Syntax.Sound

/-!
# Declarations in words

Declarations can be told from the words alone: each starts with `int`, its name stands next, and it is
complete with the first semicolon behind.

* `declarations`: the names of the complete declarations in words;
* `declarations_of_makesProgram`: words that make a program hold the declarations of the program;
* `declarations_open`: a declaration that lacks its semicolon does not count.
-/

namespace IntLang

/-- The names of the complete declarations in words, in their order. -/
def declarations : List Word → List UnitText
  | w :: n :: rest =>
    if w.kind = .int ∧ ∃ z ∈ rest, z.kind = .semi then n.value :: declarations (n :: rest)
    else declarations (n :: rest)
  | _ => []

variable {w n z : Word} {u v : List Word} {c : Chain} {more : List (BinaryOp × Node)}
  {nodes : List Node}

/-! ## Word by word -/

theorem declarations_cons (hw : w.kind ≠ .int) (v : List Word) :
    declarations (w :: v) = declarations v := by
  cases v with
  | nil => rfl
  | cons n v => rw [declarations, if_neg fun h => hw h.1]

theorem declarations_append (hu : ∀ w ∈ u, w.kind ≠ .int) (v : List Word) :
    declarations (u ++ v) = declarations v := by
  induction u with
  | nil => rfl
  | cons w u ih =>
    obtain ⟨hw, hu⟩ := List.forall_mem_cons.mp hu
    rw [List.cons_append, declarations_cons hw, ih hu]

theorem declarations_int (hw : w.kind = .int) (hn : n.kind = .ident) (hz : z.kind = .semi)
    (hu : ∀ w ∈ u, w.kind ≠ .int) (v : List Word) :
    declarations (w :: n :: (u ++ z :: v)) = n.value :: declarations v := by
  have hsemi : ∃ s ∈ u ++ z :: v, s.kind = .semi := ⟨z, by simp, hz⟩
  rw [declarations, if_pos ⟨hw, hsemi⟩, declarations_cons (by simp [hn]), declarations_append hu,
    declarations_cons (by simp [hz])]

theorem declarations_open (hn : n.kind = .ident)
    (hu : ∀ z ∈ u, z.kind ≠ .int ∧ z.kind ≠ .semi) : declarations (w :: n :: u) = [] := by
  have hsemi : ¬ ∃ z ∈ u, z.kind = .semi := fun ⟨z, hz, hk⟩ => (hu z hz).2 hk
  have hnil := declarations_append (fun z hz => (hu z hz).1) []
  rw [List.append_nil] at hnil
  rw [declarations, if_neg fun h => hsemi h.2, declarations_cons (by simp [hn]), hnil]
  rfl

/-! ## Words of a program -/

/-- Words without a declaration and without the end of one. -/
def Plain (u : List Word) : Prop := ∀ w ∈ u, w.kind ≠ .int ∧ w.kind ≠ .semi

theorem Plain.cons (hw : w.kind ≠ .int ∧ w.kind ≠ .semi) (hu : Plain u) : Plain (w :: u) :=
  List.forall_mem_cons.mpr ⟨hw, hu⟩

theorem Plain.append (hu : Plain u) (hv : Plain v) : Plain (u ++ v) :=
  List.forall_mem_append.mpr ⟨hu, hv⟩

theorem Plain.ne_int (hu : Plain u) : ∀ w ∈ u, w.kind ≠ .int := fun w hw => (hu w hw).1

/-- What is declared among events. -/
def declaredBy (es : List NameEvent) : List UnitText := es.filterMap NameEvent.declared?

@[simp] theorem declaredBy_nil : declaredBy [] = [] := rfl

@[simp] theorem declaredBy_append (es fs : List NameEvent) :
    declaredBy (es ++ fs) = declaredBy es ++ declaredBy fs := List.filterMap_append

@[simp] theorem declaredBy_uses (name : UnitText) (es : List NameEvent) :
    declaredBy (.uses name :: es) = declaredBy es := rfl

/-- An expression only uses names. -/
theorem plain_of_makesChain (h : MakesChain u c) : Plain u ∧ declaredBy c.events = [] := by
  refine @MakesChain.rec (fun u c _ => Plain u ∧ declaredBy c.events = [])
    (fun v more _ => Plain v ∧ declaredBy (Chain.moreEvents more) = [])
    ?negate ?number ?name ?assign ?group ?stop ?more u c h
  case negate => exact fun hw _ ih => ⟨.cons (by simp [hw]) ih.1, ih.2⟩
  case number =>
    intro w v more hw _ ih
    exact ⟨.cons (by simp [hw]) ih.1, by simp [Chain.events, ih.2]⟩
  case name =>
    intro w v more hw _ ih
    exact ⟨.cons (by simp [hw]) ih.1, by simp [Chain.events, Node.events, ih.2]⟩
  case assign =>
    intro w e u c hw he _ ih
    refine ⟨.cons (by simp [hw]) (.cons (by simp [he]) ih.1), ?_⟩
    rw [Chain.events_alone, Node.events, Chain.events_tree, declaredBy_append, ih.2]
    rfl
  case group =>
    intro l r u v c more hl _ hr _ ih iht
    refine ⟨.append (.cons (by simp [hl]) ih.1) (.cons (by simp [hr]) iht.1), ?_⟩
    rw [Chain.events, Chain.events_tree, declaredBy_append, ih.2, iht.2]
    rfl
  case stop => exact ⟨List.forall_mem_nil _, rfl⟩
  case more =>
    intro w op u c hw _ ih
    refine ⟨.cons ⟨?_, ?_⟩ ih.1, ih.2⟩ <;> rintro hk <;> rw [hk] at hw <;> cases hw

/-- A text, or several, holds the given declarations, whatever follows. -/
def Declares (u : List Word) (names : List UnitText) : Prop :=
  ∀ v, declarations (u ++ v) = names ++ declarations v

theorem Plain.declares (hu : Plain u) : Declares u [] := declarations_append hu.ne_int

theorem Declares.append {names names' : List UnitText} (hu : Declares u names) (hv : Declares v names') :
    Declares (u ++ v) (names ++ names') := by
  intro t
  rw [List.append_assoc, hu, hv, List.append_assoc]

theorem Declares.cons {names : List UnitText} (hw : w.kind ≠ .int) (hu : Declares u names) :
    Declares (w :: u) names := by
  intro v
  rw [List.cons_append, declarations_cons hw, hu]

theorem declares_int (hw : w.kind = .int) (hn : n.kind = .ident) (hz : z.kind = .semi)
    (hu : Plain u) : Declares (w :: n :: u ++ [z]) [n.value] := by
  intro v
  rw [List.append_assoc]
  exact declarations_int hw hn hz hu.ne_int v

/-- **The words of statements hold their declarations.** -/
theorem declares_of_makesProgram (h : MakesProgram u nodes) : Declares u (Program.declares nodes) := by
  have chain {u : List Word} {c : Chain} (h : MakesChain u c) :
      Declares u [] ∧ declaredBy c.tree.events = [] := by
    rw [Chain.events_tree]
    exact ⟨(plain_of_makesChain h).1.declares, (plain_of_makesChain h).2⟩
  refine @MakesProgram.rec (fun u node _ => Declares u (declaredBy node.events))
    (fun u nodes _ => Declares u (declaredBy (Program.events nodes)))
    (fun u nodes _ => Declares u (declaredBy (Program.events nodes)))
    ?declare ?initial ?print ?printText ?branch ?branchElse ?bare ?braces ?nil ?cons u nodes h
  case declare => exact fun hw hn hs => declares_int hw hn hs (List.forall_mem_nil _)
  case initial =>
    intro w n e s u c hw hn he h hs
    rw [Node.events, declaredBy_append, (chain h).2]
    exact declares_int (u := e :: u) hw hn hs ((plain_of_makesChain h).1.cons (by simp [he]))
  case print =>
    intro w l r s u c hw hl h hr hs
    rw [Node.events, (chain h).2]
    have hend : Declares [r, s] [] := .cons (by simp [hr]) (.cons (by simp [hs]) fun _ => rfl)
    exact .cons (by simp [hw]) (.cons (by simp [hl]) ((chain h).1.append hend))
  case printText =>
    intro w l t r s hw hl ht hr hs
    have hend : Declares [t, r, s] [] :=
      .cons (by simp [ht]) (.cons (by simp [hr]) (.cons (by simp [hs]) fun _ => rfl))
    exact .cons (by simp [hw]) (.cons (by simp [hl]) hend)
  case branch =>
    intro w l r u v c yes hw hl h hr _ ihy
    rw [Node.events, declaredBy_append, (chain h).2]
    exact .cons (by simp [hw]) (.cons (by simp [hl]) ((chain h).1.append (ihy.cons (by simp [hr]))))
  case branchElse =>
    intro w l r e u v v' c yes no hw hl h hr _ he _ ihy ihn
    rw [Node.events, declaredBy_append, declaredBy_append, (chain h).2]
    have hyes := (chain h).1.append (ihy.cons (by simp [hr] : r.kind ≠ .int))
    exact .cons (by simp [hw]) (.cons (by simp [hl]) (hyes.append (ihn.cons (by simp [he]))))
  case bare =>
    intro s u c h hs
    rw [(chain h).2]
    exact (chain h).1.append (.cons (by simp [hs]) fun _ => rfl)
  case braces =>
    intro l r u nodes hl _ hr ih
    have hend : Declares [r] [] := .cons (by simp [hr]) fun _ => rfl
    have := ih.append hend
    rw [List.append_nil] at this
    exact this.cons (by simp [hl])
  case nil => exact fun _ => rfl
  case cons =>
    intro u v node nodes _ _ ih ihs
    rw [Program.events, declaredBy_append]
    exact ih.append ihs

theorem declares_of_makesStatement {node : Node} (h : MakesStatement u node) :
    Declares u node.declares := by
  have := declares_of_makesProgram (.cons h .nil)
  rw [List.append_nil, Program.declares, Program.events, Program.events, List.append_nil] at this
  exact this

theorem declares_of_makesBlock (h : MakesBlock u nodes) : Declares u (Program.declares nodes) := by
  cases h with
  | @braces l r u _ hl h hr =>
    have hend : Declares [r] [] := .cons (by simp [hr]) fun _ => rfl
    have := (declares_of_makesProgram h).append hend
    rw [List.append_nil] at this
    exact this.cons (by simp [hl])

theorem declarations_of_makesProgram (h : MakesProgram u nodes) :
    declarations u = Program.declares nodes := by
  have hnil : declarations [] = [] := rfl
  have := declares_of_makesProgram h []
  rwa [List.append_nil, hnil, List.append_nil] at this

end IntLang
