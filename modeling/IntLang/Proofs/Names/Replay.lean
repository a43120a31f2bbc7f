import IntLang.Scope

/-!
# Names checked one after another

* `NameCheck.replay_append`: events are checked in two goes;
* `Scope.apply_declares`, `Scope.apply_uses`: when a scope refuses nothing;
* `Scope.replay_refusal`: what is refused.
-/

namespace IntLang

namespace NameCheck

variable {σ : Type}

theorem replay_append (check : NameCheck σ) (s : σ) (es fs : List NameEvent) :
    check.replay s (es ++ fs) =
      match check.replay s es with
      | (none, s') => check.replay s' fs
      | (some refusal, s') => (some refusal, s') := by
  induction es generalizing s with
  | nil => rfl
  | cons e es ih =>
    simp only [List.cons_append, replay]
    cases check s e with
    | error refusal => rfl
    | ok s' => exact ih s'

@[simp] theorem replay_silent (es : List NameEvent) :
    silent.replay () es = (none, ()) := by
  induction es with
  | nil => rfl
  | cons e es ih => exact ih

variable {check : NameCheck σ}

theorem replay_append_none {s s' : σ} {es fs : List NameEvent} :
    check.replay s (es ++ fs) = (none, s') ↔
      ∃ s₁, check.replay s es = (none, s₁) ∧ check.replay s₁ fs = (none, s') := by
  rw [replay_append]
  rcases check.replay s es with ⟨_ | refusal, s₁⟩ <;> simp

theorem replay_singleton {s s' : σ} {e : NameEvent} :
    check.replay s [e] = (none, s') ↔ check s e = .ok s' := by
  simp only [replay]
  cases check s e <;> simp

end NameCheck

namespace Scope

variable {s s' : Scope} {name : UnitText}

theorem apply_declares : apply s (.declares name) = .ok s' ↔
    name ∉ s.names ∧ s'.names = s.names ++ [name] := by
  rw [apply, declare]
  split
  · next h => simp [h]
  · next h =>
    obtain ⟨names, _⟩ := s'
    simp [h, eq_comm]

theorem apply_uses : apply s (.uses name) = .ok s' ↔ name ∈ s.names ∧ s' = s := by
  rw [apply, require]
  split
  · next h => simp [h, Except.map, eq_comm]
  · next h => simp [h, Except.map]

theorem eq_of_names {s t : Scope} (h : s.names = t.names) : s = t := by
  obtain ⟨names, _⟩ := s
  obtain ⟨names', _⟩ := t
  cases h
  rfl

/-- A name is refused because it is declared already or not yet. -/
theorem replay_refusal {scope scope' : Scope} {es : List NameEvent} {e : CompileError}
    (h : NameCheck.replay apply scope es = (some e, scope')) :
    ∃ name, e = .duplicate name ∨ e = .undeclared name := by
  induction es generalizing scope with
  | nil => cases h
  | cons event es ih =>
    simp only [NameCheck.replay] at h
    split at h
    · next refusal hr =>
      cases h
      cases event with
      | declares name =>
        refine ⟨name, .inl ?_⟩
        simp only [apply, declare] at hr
        split at hr <;> cases hr
        rfl
      | uses name =>
        refine ⟨name, .inr ?_⟩
        simp only [apply, require] at hr
        split at hr <;> cases hr
        rfl
    · exact ih h

end Scope

end IntLang
