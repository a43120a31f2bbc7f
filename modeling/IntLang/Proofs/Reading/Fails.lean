import IntLang.Proofs.Reading.Yields

/-!
# How readings fail

A reading fails where one of its parts does, behind what the parts before it yield. The lemmas go with
those on `Reading.Yields`: a parser that fails is taken apart as one that yields.

* `Reading.Fails`: from the names known before, an error, and the names known by then;
* `Reading.fails_glue`: a sequence fails in its first part, or in its second part on what the first one
  yields; likewise `fails_bind`, `fails_andThen` and `fails_finish`;
* `Parse.fails_eat`, `Parse.fails_look`: what stands next is no token, or not the one to be taken.
-/

namespace IntLang

namespace Reading

variable {σ α β : Type} {m n : Nat}

def Fails (r : Reading σ n α) (s : σ) (e : CompileError) (s' : σ) : Prop := r s = ⟨s', .error e⟩

variable {s s' : σ} {e : CompileError}

@[simp] theorem fails_fail {e₀ : CompileError} :
    (fail e₀ : Reading σ n α).Fails s e s' ↔ e₀ = e ∧ s = s' := by
  constructor
  · intro h
    cases h
    exact ⟨rfl, rfl⟩
  · rintro ⟨rfl, rfl⟩
    rfl

@[simp] theorem fails_done (a : α) (rest : List Pull) (h : rest.length < n) :
    ¬ (done a rest h : Reading σ n α).Fails s e s' := by
  intro h
  cases h

@[simp] theorem fails_stay (a : α) (pulls : List Pull) :
    ¬ (stay a pulls : Reading σ _ α).Fails s e s' := fails_done a pulls _

@[simp] theorem fails_after {check : NameCheck σ} {event : NameEvent} {r : Reading σ n α} :
    (r.after check event).Fails s e s' ↔
      (check s event = .error e ∧ s = s') ∨ ∃ s₁, check s event = .ok s₁ ∧ r.Fails s₁ e s' := by
  unfold Fails after
  cases check s event with
  | error e₁ =>
    simp only [Except.error.injEq, reduceCtorEq, false_and, exists_false, or_false]
    exact fails_fail (n := n) (α := α)
  | ok s₁ => simp

theorem fails_glue {r : Reading σ m α}
    {next : α → (rest : List Pull) → rest.length < m → Reading σ n β} :
    (r.glue next).Fails s e s' ↔ r.Fails s e s' ∨
      ∃ a s₁ rest, ∃ h : rest.length < m, r.Yields s a s₁ rest ∧ (next a rest h).Fails s₁ e s' := by
  unfold Fails Yields glue
  rcases hr : r s with ⟨s₁, e₁ | ⟨a, rest⟩⟩
  · simp
  · constructor
    · exact fun h => .inr ⟨a, s₁, rest.1, rest.2, ⟨rest.2, rfl⟩, h⟩
    · rintro (h | ⟨a, s₁, rest, _, ⟨_, h⟩, h'⟩)
      · cases h
      · cases h
        exact h'

section

variable {r : Reading σ n α}

@[simp] theorem fails_weaken {h : n ≤ m} : (r.weaken h).Fails s e s' ↔ r.Fails s e s' := by
  simp [weaken, fails_glue]

@[simp] theorem fails_loose : r.loose.Fails s e s' ↔ r.Fails s e s' := fails_weaken

@[simp] theorem fails_map {f : α → β} : (r.map f).Fails s e s' ↔ r.Fails s e s' := by
  simp [map, fails_glue]

theorem fails_followed {check : NameCheck σ} {event : NameEvent} :
    (r.followed check event).Fails s e s' ↔
      r.Fails s e s' ∨ ∃ a rest, r.Yields s a s' rest ∧ check s' event = .error e := by
  rw [followed, fails_glue]
  simp only [fails_after, fails_done, and_false, exists_false, or_false]
  refine or_congr_right ⟨?_, ?_⟩
  · rintro ⟨a, s₁, rest, _, hr, hc, rfl⟩
    exact ⟨a, rest, hr, hc⟩
  · rintro ⟨a, rest, hr, hc⟩
    exact ⟨a, s', rest, hr.1, hr, hc, rfl⟩

theorem fails_bind {next : α → (rest : List Pull) → rest.length < n → Reading σ rest.length β} :
    (r.bind next).Fails s e s' ↔ r.Fails s e s' ∨
      ∃ a s₁ rest, ∃ h : rest.length < n, r.Yields s a s₁ rest ∧ (next a rest h).Fails s₁ e s' := by
  simp only [bind, fails_glue, fails_weaken]

theorem fails_andThen
    {next : α → (rest : List Pull) → rest.length < n → Reading σ (rest.length + 1) β} :
    (r.andThen next).Fails s e s' ↔ r.Fails s e s' ∨
      ∃ a s₁ rest, ∃ h : rest.length < n, r.Yields s a s₁ rest ∧ (next a rest h).Fails s₁ e s' := by
  simp only [andThen, fails_glue, fails_weaken]

theorem fails_finish {r : Reading σ (n + 1) α}
    {next : α → (rest : List Pull) → rest.length < n + 1 → Reading σ rest.length β} :
    (r.finish next).Fails s e s' ↔ r.Fails s e s' ∨
      ∃ a s₁ rest, ∃ h : rest.length < n + 1,
        r.Yields s a s₁ rest ∧ (next a rest h).Fails s₁ e s' := by
  simp only [finish, fails_glue, fails_weaken]

end

end Reading

namespace Parse

open Reading

variable {σ α : Type} {n : Nat} {s s' : σ} {e : CompileError} {last : Token}

theorem fails_look {pulls : List Pull} {next : Token → Reading σ n α} :
    (look last pulls next).Fails s e s' ↔ (TokenSource.peek last pulls = .error e ∧ s = s') ∨
      ∃ t, TokenSource.peek last pulls = .ok t ∧ (next t).Fails s e s' := by
  unfold look
  cases TokenSource.peek last pulls <;> simp

theorem fails_eat {kind : TokenKind} {pulls : List Pull}
    (h : (eat last kind pulls : Reading σ _ _).Fails s e s') :
    s = s' ∧ (TokenSource.peek last pulls = .error e ∨
      ∃ t d, TokenSource.peek last pulls = .ok t ∧ e = .unexpected t d) := by
  rcases pulls with _ | ⟨e₀ | t, rest⟩
  · obtain ⟨rfl, rfl⟩ := fails_fail.mp h
    exact ⟨rfl, .inr ⟨last, _, rfl, rfl⟩⟩
  · obtain ⟨rfl, rfl⟩ := fails_fail.mp h
    exact ⟨rfl, .inl rfl⟩
  · rw [eat] at h
    split at h
    · exact absurd h (fails_stay t rest)
    · obtain ⟨rfl, rfl⟩ := fails_fail.mp h
      exact ⟨rfl, .inr ⟨t, _, rfl, rfl⟩⟩

end Parse

end IntLang
