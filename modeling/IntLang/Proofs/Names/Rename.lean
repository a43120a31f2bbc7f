import Mathlib.Logic.Function.Basic
import IntLang.Proofs.Names.Walk

/-!
# Other names

Names are all that a walk compares, so a program whose names are replaced one to one by others is
walked as before, in the scope with the other names.

* `Node.rename`: other names in declarations, assignments and uses;
* `walk_rename`: a walk that meets no refusal meets none with the other names;
* `rename_injective`: programs are as different as before.
-/

namespace IntLang

variable (f : UnitText → UnitText)

/-! ## Programs -/

mutual

def Node.rename : Node → Node
  | .number value => .number value
  | .var name => .var (f name)
  | .assign name value => .assign (f name) value.rename
  | .negate operand => .negate operand.rename
  | .binary op left right => .binary op left.rename right.rename
  | .declare name none => .declare (f name) none
  | .declare name (some initial) => .declare (f name) (some initial.rename)
  | .print value => .print value.rename
  | .printText text => .printText text
  | .branch condition yes none => .branch condition.rename (Program.rename yes) none
  | .branch condition yes (some no) =>
    .branch condition.rename (Program.rename yes) (some (Program.rename no))
  | .block statements => .block (Program.rename statements)
  | .unknown content => .unknown content

def Program.rename : List Node → List Node
  | [] => []
  | node :: nodes => node.rename :: Program.rename nodes

end

mutual

theorem Node.rename_rename {f g : UnitText → UnitText} (h : ∀ name, g (f name) = name) :
    ∀ node : Node, (node.rename f).rename g = node
  | .number _ | .printText _ | .unknown _ => by simp only [Node.rename]
  | .var name | .declare name none => by simp only [Node.rename, h]
  | .assign name value | .declare name (some value) => by
    simp only [Node.rename, h, Node.rename_rename h value]
  | .negate e | .print e => by simp only [Node.rename, Node.rename_rename h e]
  | .binary op l r => by simp only [Node.rename, Node.rename_rename h l, Node.rename_rename h r]
  | .branch c yes none => by
    simp only [Node.rename, Node.rename_rename h c, Program.rename_rename h yes]
  | .branch c yes (some no) => by
    simp only [Node.rename, Node.rename_rename h c, Program.rename_rename h yes,
      Program.rename_rename h no]
  | .block nodes => by simp only [Node.rename, Program.rename_rename h nodes]

theorem Program.rename_rename {f g : UnitText → UnitText} (h : ∀ name, g (f name) = name) :
    ∀ nodes : List Node, Program.rename g (Program.rename f nodes) = nodes
  | [] => rfl
  | node :: nodes => by
    simp only [Program.rename, Node.rename_rename h node, Program.rename_rename h nodes]

end

theorem Program.rename_injective {f : UnitText → UnitText} (hf : Function.Injective f) :
    Function.Injective (Program.rename f) :=
  Function.LeftInverse.injective (rename_rename (Function.leftInverse_invFun hf))

/-! ## Walks -/

def NameEvent.rename : NameEvent → NameEvent
  | .declares name => .declares (f name)
  | .uses name => .uses (f name)

mutual

theorem Node.events_rename : ∀ node : Node, (node.rename f).events = node.events.map (.rename f)
  | .number _ | .printText _ | .unknown _ | .var _ | .declare _ none => by
    simp [Node.rename, Node.events, NameEvent.rename]
  | .assign name value | .declare name (some value) => by
    simp [Node.rename, Node.events, NameEvent.rename, Node.events_rename value]
  | .negate e | .print e => by simp [Node.rename, Node.events, Node.events_rename e]
  | .binary op l r => by
    simp [Node.rename, Node.events, Node.events_rename l, Node.events_rename r]
  | .branch c yes none => by
    simp [Node.rename, Node.events, Node.events_rename c, Program.events_rename yes]
  | .branch c yes (some no) => by
    simp [Node.rename, Node.events, Node.events_rename c, Program.events_rename yes,
      Program.events_rename no]
  | .block nodes => by simp [Node.rename, Node.events, Program.events_rename nodes]

theorem Program.events_rename :
    ∀ nodes : List Node, Program.events (Program.rename f nodes) = (Program.events nodes).map (.rename f)
  | [] => rfl
  | node :: nodes => by
    simp [Program.rename, Program.events, Node.events_rename node, Program.events_rename nodes]

end

variable {f}

/-- One event, in a scope and in the scope with the other names. -/
theorem Scope.apply_rename (hf : Function.Injective f) {s s' t : Scope} {event : NameEvent}
    (ht : t.names = s.names.map f) (h : apply s event = .ok s') :
    ∃ t', apply t (event.rename f) = .ok t' ∧ t'.names = s'.names.map f := by
  cases event with
  | declares name =>
    obtain ⟨hn, hs⟩ := apply_declares.mp h
    have hn' : f name ∉ t.names := by
      rw [ht, List.mem_map]
      rintro ⟨a, ha, he⟩
      exact hn (hf he ▸ ha)
    refine ⟨⟨t.names ++ [f name], ?_⟩, apply_declares.mpr ⟨hn', rfl⟩, by simp [ht, hs]⟩
    rw [List.nodup_append]
    exact ⟨t.nodup, by simp, fun a ha b hb => by grind⟩
  | uses name =>
    obtain ⟨hn, rfl⟩ := apply_uses.mp h
    exact ⟨t, apply_uses.mpr ⟨ht ▸ List.mem_map_of_mem hn, rfl⟩, ht⟩

theorem NameCheck.replay_rename (hf : Function.Injective f) {s s' t : Scope} {events : List NameEvent}
    (ht : t.names = s.names.map f) (h : replay Scope.apply s events = (none, s')) :
    ∃ t', replay Scope.apply t (events.map (.rename f)) = (none, t') ∧
      t'.names = s'.names.map f := by
  induction events generalizing s t with
  | nil =>
    cases h
    exact ⟨t, rfl, ht⟩
  | cons event events ih =>
    rw [replay] at h
    split at h
    · cases h
    · next s₁ hs =>
      obtain ⟨t₁, ht₁, hn⟩ := Scope.apply_rename hf ht hs
      obtain ⟨t', ht', hn'⟩ := ih hn h
      refine ⟨t', ?_, hn'⟩
      rw [List.map_cons, replay, ht₁]
      exact ht'

/-- A walk with other names goes on as the walk of the program. -/
theorem Program.walk_rename (hf : Function.Injective f) {program : Program} {s s' t : Scope}
    (ht : t.names = s.names.map f) (h : program.walk s = (none, s')) :
    ∃ t', Program.walk (Program.rename f program) t = (none, t') ∧ t'.names = s'.names.map f := by
  rw [walk, events_rename]
  exact NameCheck.replay_rename hf ht h

end IntLang
