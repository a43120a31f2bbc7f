import IntLang.Proofs.Names.Walk
import IntLang.Proofs.Syntax.WellFormed

/-!
# Names in blocks

A scope knows nothing of blocks: a name that is declared in one is known behind it. Under block
scoping it is gone there. Both agree on the programs that use no name behind the block it is declared
in.

* `Program.Scoped`: under block scoping, every name is declared before it is used;
* `Program.Contained`: no name is used behind the block it is declared in;
* **`scoped_iff_contained`**: for programs whose walk meets no refusal they are the same.
-/

namespace IntLang

/-! ## Declared and used names -/

def NameEvent.declared? : NameEvent → Option UnitText
  | .declares name => some name
  | .uses _ => none

def NameEvent.used? : NameEvent → Option UnitText
  | .declares _ => none
  | .uses name => some name

def Node.declares (node : Node) : List UnitText := node.events.filterMap NameEvent.declared?

def Node.uses (node : Node) : List UnitText := node.events.filterMap NameEvent.used?

def Program.declares (nodes : List Node) : List UnitText :=
  (Program.events nodes).filterMap NameEvent.declared?

def Program.uses (nodes : List Node) : List UnitText :=
  (Program.events nodes).filterMap NameEvent.used?

theorem NameCheck.replay_names {s s' : Scope} {events : List NameEvent}
    (h : replay Scope.apply s events = (none, s')) :
    s'.names = s.names ++ events.filterMap NameEvent.declared? ∧
      ∀ name ∈ events.filterMap NameEvent.used?, name ∈ s'.names := by
  induction events generalizing s with
  | nil =>
    cases h
    simp
  | cons event events ih =>
    rw [replay] at h
    split at h
    · cases h
    · next s₁ hs =>
      obtain ⟨hn, hu⟩ := ih h
      cases event with
      | declares name =>
        obtain ⟨-, hs⟩ := Scope.apply_declares.mp hs
        refine ⟨?_, hu⟩
        simp [hn, hs, NameEvent.declared?]
      | uses name =>
        obtain ⟨hm, rfl⟩ := Scope.apply_uses.mp hs
        refine ⟨hn, List.forall_mem_cons.mpr ⟨?_, hu⟩⟩
        rw [hn]
        exact List.mem_append_left _ hm

/-! ## Block scoping -/

/-- The names that a node declares in its own block. -/
def Node.declaresHere : Node → List UnitText
  | .declare name _ => [name]
  | _ => []

/-- The names that a node declares in blocks of its own. -/
def Node.declaresInside : Node → List UnitText
  | .branch _ yes none => Program.declares yes
  | .branch _ yes (some no) => Program.declares yes ++ Program.declares no
  | _ => []

mutual

def Node.Scoped : Node → List UnitText → Prop
  | .declare _ none, _ => True
  | .declare _ (some initial), visible => ∀ name ∈ initial.uses, name ∈ visible
  | .branch condition yes none, visible =>
    (∀ name ∈ condition.uses, name ∈ visible) ∧ Program.Scoped yes visible
  | .branch condition yes (some no), visible =>
    (∀ name ∈ condition.uses, name ∈ visible) ∧ Program.Scoped yes visible ∧
      Program.Scoped no visible
  | node, visible => ∀ name ∈ node.uses, name ∈ visible

/-- Every name used is visible: declared before, in the same block or in one around it. -/
def Program.Scoped : List Node → List UnitText → Prop
  | [], _ => True
  | node :: nodes, visible =>
    node.Scoped visible ∧ Program.Scoped nodes (visible ++ node.declaresHere)

end

mutual

def Node.Contained : Node → Prop
  | .branch _ yes none => Program.Contained yes
  | .branch _ yes (some no) =>
    Program.Contained yes ∧ Program.Contained no ∧
      ∀ name ∈ Program.declares yes, name ∉ Program.uses no
  | _ => True

/-- No name that is declared in a block is used behind it. -/
def Program.Contained : List Node → Prop
  | [] => True
  | node :: nodes =>
    node.Contained ∧ (∀ name ∈ node.declaresInside, name ∉ Program.uses nodes) ∧
      Program.Contained nodes

end

/-! ## Both agree -/

theorem IsExpression.declares {e : Node} (h : IsExpression e) : e.declares = [] := by
  unfold Node.declares
  induction h with
  | number => rfl
  | var => rfl
  | assign _ _ ih => simp [Node.events, NameEvent.declared?, ih]
  | negate _ ih => simp [Node.events, ih]
  | binary _ _ ihl ihr => simp [Node.events, ihl, ihr]

theorem IsStatement.declares {node : Node} (h : IsStatement node) :
    node.declares = node.declaresHere ++ node.declaresInside := by
  cases h with
  | declare => rfl
  | initial _ hv =>
    have hv : List.filterMap NameEvent.declared? _ = [] := hv.declares
    simp [Node.declares, Node.events, Node.declaresHere, Node.declaresInside, hv, NameEvent.declared?]
  | print hv => exact hv.declares
  | printText => rfl
  | branch hc =>
    have hc : List.filterMap NameEvent.declared? _ = [] := hc.declares
    simp [Node.declares, Node.events, Node.declaresHere, Node.declaresInside, hc, Program.declares]
  | branchElse hc =>
    have hc : List.filterMap NameEvent.declared? _ = [] := hc.declares
    simp [Node.declares, Node.events, Node.declaresHere, Node.declaresInside, hc, Program.declares]
  | bare hv =>
    rw [hv.declares]
    cases hv <;> rfl

/-- An expression leaves the scope as it is, and its names are there. -/
theorem IsExpression.replay {e : Node} (h : IsExpression e) {s s' : Scope}
    (hr : NameCheck.replay Scope.apply s e.events = (none, s')) :
    s' = s ∧ ∀ name ∈ e.uses, name ∈ s.names := by
  obtain ⟨hn, hu⟩ := NameCheck.replay_names hr
  rw [show e.events.filterMap NameEvent.declared? = [] from h.declares, List.append_nil] at hn
  obtain rfl := Scope.eq_of_names hn
  exact ⟨rfl, hu⟩

/-- Behind the names `here` and the blocks that declare `inside`, the names visible are those visible
before and the names `here`. -/
theorem forall_visible_iff {used known here inside visible : List UnitText}
    (hv : ∀ name ∈ visible, name ∈ known) (hn : (known ++ (here ++ inside)).Nodup) :
    (∀ name ∈ used, name ∈ known ++ (here ++ inside) → name ∈ visible ++ here) ↔
      (∀ name ∈ used, name ∈ known → name ∈ visible) ∧ ∀ name ∈ inside, name ∉ used := by
  obtain ⟨-, hn, hk⟩ := List.nodup_append.mp hn
  obtain ⟨-, -, hi⟩ := List.nodup_append.mp hn
  constructor
  · intro h
    refine ⟨fun name hu hm => ?_, fun name hm hu => ?_⟩
    · rcases List.mem_append.mp (h name hu (List.mem_append_left _ hm)) with h | h
      · exact h
      · exact absurd rfl (hk name hm name (List.mem_append_left _ h))
    · have hm' := List.mem_append_right here hm
      rcases List.mem_append.mp (h name hu (List.mem_append_right _ hm')) with h | h
      · exact absurd rfl (hk name (hv name h) name hm')
      · exact absurd rfl (hi name h name hm)
  · rintro ⟨h, hout⟩ name hu hm
    simp only [List.mem_append] at hm ⊢
    rcases hm with hm | hm | hm
    · exact .inl (h name hu hm)
    · exact .inr hm
    · exact absurd hu (hout name hm)

/-- Walked from the scope `s`, the node is scoped just when it is contained and uses no name of `s` but
the visible ones. -/
def Node.Agrees (node : Node) (s : Scope) : Prop :=
  ∀ visible, (∀ name ∈ visible, name ∈ s.names) →
    (node.Scoped visible ↔ node.Contained ∧ ∀ name ∈ node.uses, name ∈ s.names → name ∈ visible)

def Program.Agrees (nodes : List Node) (s : Scope) : Prop :=
  ∀ visible, (∀ name ∈ visible, name ∈ s.names) →
    (Program.Scoped nodes visible ↔ Program.Contained nodes ∧
      ∀ name ∈ Program.uses nodes, name ∈ s.names → name ∈ visible)

theorem IsExpression.visible_iff {e : Node} (h : IsExpression e) {s s' : Scope}
    (hr : NameCheck.replay Scope.apply s e.events = (none, s')) (visible : List UnitText) :
    (∀ name ∈ e.uses, name ∈ visible) ↔ ∀ name ∈ e.uses, name ∈ s.names → name ∈ visible := by
  obtain ⟨-, hu⟩ := h.replay hr
  exact forall₂_congr fun name hm => ⟨fun h _ => h, fun h => h (hu name hm)⟩

theorem agrees_branch {condition : Node} {yes : List Node} (hc : IsExpression condition)
    (ihy : ∀ {s s'}, NameCheck.replay Scope.apply s (Program.events yes) = (none, s') →
      Program.Agrees yes s) {s s' : Scope}
    (hr : NameCheck.replay Scope.apply s (Node.branch condition yes none).events = (none, s')) :
    (Node.branch condition yes none).Agrees s := by
  intro visible hvis
  obtain ⟨s₁, hrc, hry⟩ := NameCheck.replay_append_none.mp hr
  obtain ⟨rfl, -⟩ := hc.replay hrc
  have huses : (Node.branch condition yes none).uses = condition.uses ++ Program.uses yes :=
    List.filterMap_append
  rw [Node.Scoped, Node.Contained, hc.visible_iff hrc, ihy hry visible hvis, huses,
    List.forall_mem_append]
  exact and_left_comm

theorem agrees_branchElse {condition : Node} {yes no : List Node} (hc : IsExpression condition)
    (ihy : ∀ {s s'}, NameCheck.replay Scope.apply s (Program.events yes) = (none, s') →
      Program.Agrees yes s)
    (ihn : ∀ {s s'}, NameCheck.replay Scope.apply s (Program.events no) = (none, s') →
      Program.Agrees no s) {s s' : Scope}
    (hr : NameCheck.replay Scope.apply s (Node.branch condition yes (some no)).events = (none, s')) :
    (Node.branch condition yes (some no)).Agrees s := by
  intro visible hvis
  obtain ⟨s₂, hr, hrn⟩ := NameCheck.replay_append_none.mp hr
  obtain ⟨s₁, hrc, hry⟩ := NameCheck.replay_append_none.mp hr
  obtain ⟨rfl, -⟩ := hc.replay hrc
  obtain ⟨hs₂, -⟩ := NameCheck.replay_names hry
  have hvis₂ : ∀ name ∈ visible, name ∈ s₂.names := by
    intro name hm
    rw [hs₂]
    exact List.mem_append_left _ (hvis name hm)
  have hno : (∀ name ∈ Program.uses no, name ∈ s₂.names → name ∈ visible) ↔
      (∀ name ∈ Program.uses no, name ∈ s₁.names → name ∈ visible) ∧
        ∀ name ∈ Program.declares yes, name ∉ Program.uses no := by
    have hnodup := s₂.nodup
    rw [hs₂] at hnodup ⊢
    have := @forall_visible_iff (Program.uses no) s₁.names [] (Program.declares yes) visible hvis hnodup
    rwa [List.append_nil] at this
  have huses : (Node.branch condition yes (some no)).uses =
      condition.uses ++ Program.uses yes ++ Program.uses no := by
    simp [Node.uses, Program.uses, Node.events]
  rw [Node.Scoped, Node.Contained, hc.visible_iff hrc, ihy hry visible hvis, ihn hrn visible hvis₂,
    hno, huses, List.forall_mem_append, List.forall_mem_append]
  constructor
  · rintro ⟨hcond, ⟨hyc, hyv⟩, hnc, hnv, hout⟩
    exact ⟨⟨hyc, hnc, hout⟩, ⟨hcond, hyv⟩, hnv⟩
  · rintro ⟨⟨hyc, hnc, hout⟩, ⟨hcond, hyv⟩, hnv⟩
    exact ⟨hcond, ⟨hyc, hyv⟩, hnc, hnv, hout⟩

theorem agrees_cons {node : Node} {nodes : List Node} (h : IsStatement node)
    (ih : ∀ {s s'}, NameCheck.replay Scope.apply s node.events = (none, s') → node.Agrees s)
    (ihs : ∀ {s s'}, NameCheck.replay Scope.apply s (Program.events nodes) = (none, s') →
      Program.Agrees nodes s) {s s' : Scope}
    (hr : NameCheck.replay Scope.apply s (Program.events (node :: nodes)) = (none, s')) :
    Program.Agrees (node :: nodes) s := by
  intro visible hvis
  obtain ⟨s₁, hr, hrs⟩ := NameCheck.replay_append_none.mp hr
  obtain ⟨hs₁, -⟩ := NameCheck.replay_names hr
  rw [show node.events.filterMap NameEvent.declared? = _ from h.declares] at hs₁
  have hvis₁ : ∀ name ∈ visible ++ node.declaresHere, name ∈ s₁.names := by
    intro name hm
    rw [hs₁, ← List.append_assoc]
    refine List.mem_append_left _ ?_
    rcases List.mem_append.mp hm with hm | hm
    · exact List.mem_append_left _ (hvis name hm)
    · exact List.mem_append_right _ hm
  have hbehind : (∀ name ∈ Program.uses nodes, name ∈ s₁.names → name ∈ visible ++ node.declaresHere) ↔
      (∀ name ∈ Program.uses nodes, name ∈ s.names → name ∈ visible) ∧
        ∀ name ∈ node.declaresInside, name ∉ Program.uses nodes := by
    have hnodup := s₁.nodup
    rw [hs₁] at hnodup ⊢
    exact forall_visible_iff hvis hnodup
  have huses : Program.uses (node :: nodes) = node.uses ++ Program.uses nodes :=
    List.filterMap_append
  rw [Program.Scoped, Program.Contained, ih hr visible hvis, ihs hrs _ hvis₁, hbehind, huses,
    List.forall_mem_append]
  constructor
  · rintro ⟨⟨hn, hv⟩, hc, hvs, hout⟩
    exact ⟨⟨hn, hout, hc⟩, hv, hvs⟩
  · rintro ⟨⟨hn, hout, hc⟩, hv, hvs⟩
    exact ⟨⟨hn, hv⟩, hc, hvs, hout⟩

theorem agrees_of_areStatements {nodes : List Node} (h : AreStatements nodes) {s s' : Scope}
    (hr : NameCheck.replay Scope.apply s (Program.events nodes) = (none, s')) :
    Program.Agrees nodes s := by
  revert s s'
  refine @AreStatements.rec
    (fun node _ => ∀ {s s'}, NameCheck.replay Scope.apply s node.events = (none, s') → node.Agrees s)
    (fun nodes _ => ∀ {s s'}, NameCheck.replay Scope.apply s (Program.events nodes) = (none, s') →
      Program.Agrees nodes s)
    ?declare ?initial ?print ?printText ?branch ?branchElse ?bare ?nil ?cons nodes h
  case declare =>
    intro name _ s s' _ visible _
    simp [Node.Scoped, Node.Contained, Node.uses, Node.events, NameEvent.used?]
  case initial =>
    intro name value _ hv s s' hr visible _
    obtain ⟨s₁, hr, -⟩ := NameCheck.replay_append_none.mp hr
    have huses : (Node.declare name (some value)).uses = value.uses := by
      simp [Node.uses, Node.events, NameEvent.used?]
    rw [huses]
    exact (hv.visible_iff hr visible).trans (true_and _).symm.to_iff
  case print =>
    intro value hv s s' hr visible _
    exact (hv.visible_iff hr visible).trans (true_and _).symm.to_iff
  case printText =>
    intro text _ s s' _ visible _
    simp [Node.Scoped, Node.Contained, Node.uses, Node.events]
  case branch => exact fun hc _ ihy => agrees_branch hc ihy
  case branchElse => exact fun hc _ _ ihy ihn => agrees_branchElse hc ihy ihn
  case bare =>
    intro value hv s s' hr visible _
    have := hv.visible_iff hr visible
    cases hv <;> exact this.trans (true_and _).symm.to_iff
  case nil =>
    intro s s' _ visible _
    simp [Program.Scoped, Program.Contained, Program.uses, Program.events]
  case cons => exact fun h _ ih ihs => agrees_cons h ih ihs

/-- **Block scoping loses just the names that are used behind their blocks.** -/
theorem scoped_iff_contained {program : Program} (h : AreStatements program)
    (hw : (program.walk .empty).1 = none) : Program.Scoped program [] ↔ Program.Contained program := by
  have hr : NameCheck.replay Scope.apply .empty (Program.events program) =
      (none, (program.walk .empty).2) := Prod.ext hw rfl
  have := agrees_of_areStatements h hr [] (by simp)
  simpa [Scope.empty] using this

end IntLang
