import IntLang.Parse.Reading

/-!
# What readings yield

A reading yields a result when it does not fail. Each combinator and each parser of one token is
given by when it yields: nobody has to open it again.

* `Reading.Yields`: from the names known before, a result, the names known behind it and the pulls
  left;
* `Reading.yields_glue`: a sequence yields what its second part yields on what the first part left,
  and likewise `yields_bind`, `yields_andThen` and `yields_finish`;
* `Parse.yields_eat`, `Parse.yields_look`: one token taken, one token seen.
-/

namespace IntLang

namespace Reading

variable {σ α β : Type} {m n : Nat}

def Yields (r : Reading σ n α) (s : σ) (a : α) (s' : σ) (rest : List Pull) : Prop :=
  ∃ h : rest.length < n, r s = ⟨s', .ok (a, ⟨rest, h⟩)⟩

variable {s s' : σ} {a : α} {b : β} {rest : List Pull}

@[simp] theorem yields_fail (e : CompileError) : ¬ (fail e : Reading σ n α).Yields s a s' rest := by
  rintro ⟨_, h⟩
  cases h

@[simp] theorem yields_done {a₀ : α} {rest₀ : List Pull} {h : rest₀.length < n} :
    (done a₀ rest₀ h).Yields s a s' rest ↔ a₀ = a ∧ s = s' ∧ rest₀ = rest := by
  constructor
  · rintro ⟨_, h'⟩
    cases h'
    exact ⟨rfl, rfl, rfl⟩
  · rintro ⟨rfl, rfl, rfl⟩
    exact ⟨h, rfl⟩

@[simp] theorem yields_stay {a₀ : α} {pulls : List Pull} :
    (stay a₀ pulls).Yields s a s' rest ↔ a₀ = a ∧ s = s' ∧ pulls = rest := yields_done

@[simp] theorem yields_after {check : NameCheck σ} {event : NameEvent} {r : Reading σ n α} :
    (r.after check event).Yields s a s' rest ↔
      ∃ s₁, check s event = .ok s₁ ∧ r.Yields s₁ a s' rest := by
  unfold Yields after
  cases check s event <;> simp

theorem yields_glue {r : Reading σ m α}
    {next : α → (rest : List Pull) → rest.length < m → Reading σ n β} :
    (r.glue next).Yields s b s' rest ↔
      ∃ a s₁ rest₁, ∃ h : rest₁.length < m,
        r.Yields s a s₁ rest₁ ∧ (next a rest₁ h).Yields s₁ b s' rest := by
  constructor
  · rintro ⟨h, hr⟩
    unfold glue at hr
    split at hr
    · next s₁ a rest₁ hs => exact ⟨a, s₁, rest₁.1, rest₁.2, ⟨rest₁.2, hs⟩, h, hr⟩
    · cases hr
  · rintro ⟨a, s₁, rest₁, _, ⟨h₁, hr⟩, h, hn⟩
    exact ⟨h, by simp only [glue, hr]; exact hn⟩

section

variable {r : Reading σ n α}

@[simp] theorem yields_weaken {h : n ≤ m} : (r.weaken h).Yields s a s' rest ↔ r.Yields s a s' rest := by
  rw [weaken, yields_glue]
  simp only [yields_done]
  constructor
  · rintro ⟨a, s₁, rest₁, _, hr, rfl, rfl, rfl⟩
    exact hr
  · intro hr
    exact ⟨a, s', rest, hr.1, hr, rfl, rfl, rfl⟩

@[simp] theorem yields_loose : r.loose.Yields s a s' rest ↔ r.Yields s a s' rest := yields_weaken

@[simp] theorem yields_map {f : α → β} :
    (r.map f).Yields s b s' rest ↔ ∃ a, r.Yields s a s' rest ∧ f a = b := by
  rw [map, yields_glue]
  simp only [yields_done]
  constructor
  · rintro ⟨a, s₁, rest₁, _, hr, rfl, rfl, rfl⟩
    exact ⟨a, hr, rfl⟩
  · rintro ⟨a, hr, rfl⟩
    exact ⟨a, s', rest, hr.1, hr, rfl, rfl, rfl⟩

@[simp] theorem yields_followed {check : NameCheck σ} {event : NameEvent} :
    (r.followed check event).Yields s a s' rest ↔
      ∃ s₁, r.Yields s a s₁ rest ∧ check s₁ event = .ok s' := by
  rw [followed, yields_glue]
  simp only [yields_after, yields_done]
  constructor
  · rintro ⟨a, s₁, rest₁, _, hr, s₂, hs, rfl, rfl, rfl⟩
    exact ⟨s₁, hr, hs⟩
  · rintro ⟨s₁, hr, hs⟩
    exact ⟨a, s₁, rest, hr.1, hr, s', hs, rfl, rfl, rfl⟩

theorem yields_bind {next : α → (rest : List Pull) → rest.length < n → Reading σ rest.length β} :
    (r.bind next).Yields s b s' rest ↔
      ∃ a s₁ rest₁, ∃ h : rest₁.length < n,
        r.Yields s a s₁ rest₁ ∧ (next a rest₁ h).Yields s₁ b s' rest := by
  simp only [bind, yields_glue, yields_weaken]

theorem yields_andThen
    {next : α → (rest : List Pull) → rest.length < n → Reading σ (rest.length + 1) β} :
    (r.andThen next).Yields s b s' rest ↔
      ∃ a s₁ rest₁, ∃ h : rest₁.length < n,
        r.Yields s a s₁ rest₁ ∧ (next a rest₁ h).Yields s₁ b s' rest := by
  simp only [andThen, yields_glue, yields_weaken]

theorem yields_finish {r : Reading σ (n + 1) α}
    {next : α → (rest : List Pull) → rest.length < n + 1 → Reading σ rest.length β} :
    (r.finish next).Yields s b s' rest ↔
      ∃ a s₁ rest₁, ∃ h : rest₁.length < n + 1,
        r.Yields s a s₁ rest₁ ∧ (next a rest₁ h).Yields s₁ b s' rest := by
  simp only [finish, yields_glue, yields_weaken]

end

end Reading

namespace Parse

open Reading

variable {σ α : Type} {n : Nat} {s s' : σ} {rest : List Pull} {last : Token}

theorem yields_look {a : α} {pulls : List Pull} {next : Token → Reading σ n α} :
    (look last pulls next).Yields s a s' rest ↔
      ∃ t, TokenSource.peek last pulls = .ok t ∧ (next t).Yields s a s' rest := by
  unfold look
  cases TokenSource.peek last pulls <;> simp

theorem yields_eat {t : Token} {kind : TokenKind} {pulls : List Pull} :
    (eat last kind pulls : Reading σ _ _).Yields s t s' rest ↔
      pulls = .ok t :: rest ∧ t.kind = kind ∧ s = s' := by
  rcases pulls with _ | ⟨e | t₀, rest₀⟩
  · simp [eat]
  · simp [eat]
  · by_cases h : t₀.kind = kind
    · simp only [eat, if_pos h, yields_stay, List.cons.injEq, Except.ok.injEq]
      constructor
      · rintro ⟨rfl, rfl, rfl⟩
        exact ⟨⟨rfl, rfl⟩, h, rfl⟩
      · rintro ⟨⟨rfl, rfl⟩, _, rfl⟩
        exact ⟨rfl, rfl, rfl⟩
    · simp only [eat, if_neg h, yields_fail, false_iff, List.cons.injEq, Except.ok.injEq]
      rintro ⟨⟨rfl, _⟩, hk, _⟩
      exact h hk

end Parse

end IntLang
