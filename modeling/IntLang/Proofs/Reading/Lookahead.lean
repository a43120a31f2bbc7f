import IntLang.Proofs.Reading.Yields
import Mathlib.Computability.Language

/-!
# Readings look one token ahead

A parser takes tokens from the front of the pulls and at most looks at the next one. What comes behind
that has no say in how it ends, and neither has a lexical error that it does not look at. The tokens
it took belong to a language, or can be continued to a word of it where it finds an unexpected token.

* `Reading.Ends`: a reading ends with a result or with an error;
* `Runs` says all this of one run of a parser;
* `Runs.seq` puts runs one behind the other, the combinators are cases of it;
* `Runs.eat`, `Runs.look`: one token taken, one token seen.
-/

namespace IntLang

variable {σ α β : Type} {m n : Nat}

/-! ## Ends -/

namespace Reading

/-- The reading ends with a result and the pulls left, or with an error. -/
def Ends (r : Reading σ n α) (s : σ) (a : Except CompileError α) (s' : σ) (rest : List Pull) : Prop :=
  match a with
  | .ok a => r.Yields s a s' rest
  | .error e => r s = ⟨s', .error e⟩

variable {s s' s₁ : σ} {a : α} {b : Except CompileError β} {rest rest₁ : List Pull}

theorem glue_error {r : Reading σ m α} {e : CompileError} (h : r s = ⟨s', .error e⟩)
    (next : α → (rest : List Pull) → rest.length < m → Reading σ n β) :
    r.glue next s = ⟨s', .error e⟩ := by
  rw [glue, h]

theorem loose_error {r : Reading σ n α} {e : CompileError} (h : r s = ⟨s', .error e⟩) :
    r.loose s = ⟨s', .error e⟩ := by
  rw [loose, weaken, glue_error h]

theorem Yields.glue {r : Reading σ m α}
    {next : α → (rest : List Pull) → rest.length < m → Reading σ n β}
    (hr : r.Yields s a s₁ rest₁) (h : (next a rest₁ hr.1).Ends s₁ b s' rest) :
    (r.glue next).Ends s b s' rest := by
  cases b with
  | ok b => exact yields_glue.mpr ⟨a, s₁, rest₁, hr.1, hr, h⟩
  | error e =>
    change r.glue next s = _
    rw [Reading.glue, hr.2]
    exact h

theorem Ends.weaken {r : Reading σ m α} {a : Except CompileError α} (h : r.Ends s a s' rest)
    (hmn : m ≤ n) : (r.weaken hmn).Ends s a s' rest := by
  cases a with
  | ok a => exact yields_weaken.mpr h
  | error e => exact glue_error h _

end Reading

/-! ## Runs -/

open TokenSource (peek)

/-- The next token is the same at both places, if it can be read at the first one. -/
def Sees (last : Token) (rest : List Pull) (last' : Token) (rest' : List Pull) : Prop :=
  last'.kind = .eof ∧ ∀ t, peek last rest = .ok t → peek last' rest' = .ok t

theorem Sees.append {last last' : Token} {rest rest' : List Pull} (h : Sees last rest last' rest')
    (ts : List Token) : Sees last (ts.map .ok ++ rest) last' (ts.map .ok ++ rest') := by
  cases ts with
  | nil => exact h
  | cons t ts => exact ⟨h.1, fun _ ht => ht⟩

/-- Tokens of these kinds are a word of the language behind a result, and the beginning of one in front
of an unexpected token. -/
def Fits (D : Language TokenKind) (u : List TokenKind) (next : Pull) : Except CompileError α → Prop
  | .ok _ => u ∈ D
  | .error (.unexpected t _) => next = .ok t ∧ ∃ v, u ++ v ∈ D
  | .error _ => True

section

variable {D E : Language TokenKind} {u v : List TokenKind} {next : Pull}

theorem Fits.mono {a : Except CompileError α} (h : Fits D u next a) (hD : ∀ v ∈ D, v ∈ E) :
    Fits E u next a := by
  match a with
  | .ok _ => exact hD _ h
  | .error (.unexpected _ _) => exact ⟨h.1, h.2.imp fun _ hw => hD _ hw⟩
  | .error (.duplicate _) | .error (.undeclared _) => trivial

theorem Fits.mul {b : Except CompileError β} (hu : u ∈ D) (h : Fits E v next b) :
    Fits (D * E) (u ++ v) next b := by
  match b with
  | .ok _ => exact Language.append_mem_mul hu h
  | .error (.unexpected _ _) =>
    obtain ⟨hn, w, hw⟩ := h
    exact ⟨hn, w, by rw [List.append_assoc]; exact Language.append_mem_mul hu hw⟩
  | .error (.duplicate _) | .error (.undeclared _) => trivial

theorem Fits.mul_of_error {e : CompileError} (h : Fits D u next (.error e : Except _ α))
    (hE : ∃ w, w ∈ E) : Fits (D * E) u next (.error e : Except _ β) := by
  match e with
  | .unexpected _ _ =>
    obtain ⟨hn, v, hv⟩ := h
    obtain ⟨w, hw⟩ := hE
    exact ⟨hn, v ++ w, by rw [← List.append_assoc]; exact Language.append_mem_mul hv hw⟩
  | .duplicate _ | .undeclared _ => trivial

end

theorem exists_mem_kind (kind : TokenKind) : ∃ u, u ∈ ({[kind]} : Language TokenKind) := ⟨[kind], rfl⟩

theorem exists_mem_mul {D E : Language TokenKind} (hD : ∃ u, u ∈ D) (hE : ∃ v, v ∈ E) :
    ∃ w, w ∈ D * E := by
  obtain ⟨u, hu⟩ := hD
  obtain ⟨v, hv⟩ := hE
  exact ⟨u ++ v, Language.append_mem_mul hu hv⟩

/-- A run of a parser on some pulls, up to a lexical error or up to an end that neither the pulls behind
the next token nor a lexical error there can change. -/
inductive Runs {bound : List Pull → Nat} (D : Language TokenKind)
    (P : Token → (pulls : List Pull) → Reading σ (bound pulls) α) (last : Token) (pulls : List Pull)
    (s : σ) : Prop
  | faulty (ts : List Token) (rest : List Pull) {e : CompileError} {s' : σ}
    (hp : pulls = ts.map .ok ++ rest) (hts : ∀ t ∈ ts, t.kind ≠ .eof) (he : peek last rest = .error e)
    (h : P last pulls s = ⟨s', .error e⟩)
  | settled (ts : List Token) (rest : List Pull) (a : Except CompileError α) (s' : σ)
    (hp : pulls = ts.map .ok ++ rest) (hts : ∀ t ∈ ts, t.kind ≠ .eof)
    (hf : Fits D (ts.map Token.kind) (peek last rest) a)
    (h : ∀ last' rest', Sees last rest last' rest' →
      (P last' (ts.map .ok ++ rest')).Ends s a s' rest')

/-- Names are refused for what they are, and not as tokens. -/
def NameCheck.RefusesNames (check : NameCheck σ) : Prop :=
  ∀ s event t d, check s event ≠ .error (.unexpected t d)

namespace Runs

variable {bound bound' bound'' : List Pull → Nat} {D E : Language TokenKind}
  {P : Token → (pulls : List Pull) → Reading σ (bound pulls) α}
  {Q : Token → (pulls : List Pull) → Reading σ (bound' pulls) α}
  {last : Token} {pulls : List Pull} {s : σ}

theorem mono (h : Runs D P last pulls s) (hD : ∀ u ∈ D, u ∈ E) : Runs E P last pulls s := by
  cases h with
  | faulty ts rest hp hts he h => exact .faulty ts rest hp hts he h
  | settled ts rest a s' hp hts hf h => exact .settled ts rest a s' hp hts (hf.mono hD) h

theorem loose (h : Runs D P last pulls s) :
    Runs D (fun last pulls => (P last pulls).loose) last pulls s := by
  cases h with
  | faulty ts rest hp hts he h => exact .faulty ts rest hp hts he (Reading.loose_error h)
  | settled ts rest a s' hp hts hf h =>
    exact .settled ts rest a s' hp hts hf fun last' rest' hs => (h last' rest' hs).weaken _

/-! ## First tokens -/

/-- A lexical error that is looked at first. -/
theorem fault {e : CompileError} (he : peek last pulls = .error e)
    (h : P last pulls s = ⟨s, .error e⟩) : Runs D P last pulls s :=
  .faulty [] pulls rfl (List.forall_mem_nil _) he h

/-- An unexpected token that is looked at first. -/
theorem refuse {t : Token} {d : Option Detail} (ht : peek last pulls = .ok t) (hD : ∃ w, w ∈ D)
    (h : ∀ last' pulls', last'.kind = .eof → peek last' pulls' = .ok t →
      P last' pulls' s = ⟨s, .error (.unexpected t d)⟩) : Runs D P last pulls s :=
  .settled [] pulls (.error (.unexpected t d)) s rfl (List.forall_mem_nil _) ⟨ht, hD⟩
    fun last' rest' hs => h last' rest' hs.1 (hs.2 t ht)

/-- A result that takes no token. -/
theorem stay {a : α} (hD : [] ∈ D)
    (h : ∀ last' pulls', Sees last pulls last' pulls' → (P last' pulls').Yields s a s pulls') :
    Runs D P last pulls s :=
  .settled [] pulls (.ok a) s rfl (List.forall_mem_nil _) hD h

/-- The next token decides which parser runs. -/
theorem choose {t : Token} (hl : last.kind = .eof) (ht : peek last pulls = .ok t)
    (hQ : Runs D Q last pulls s)
    (h : ∀ last pulls a s' rest, last.kind = .eof → peek last pulls = .ok t →
      (Q last pulls).Ends s a s' rest → (P last pulls).Ends s a s' rest) : Runs D P last pulls s := by
  cases hQ with
  | faulty ts rest hp hts he hq => exact .faulty ts rest hp hts he (h _ _ (.error _) _ rest hl ht hq)
  | settled ts rest a s' hp hts hf hq =>
    refine .settled ts rest a s' hp hts hf fun last' rest' hs => ?_
    exact h _ _ _ _ _ hs.1 ((hp ▸ hs.append ts).2 t ht) (hq last' rest' hs)

/-- A token is taken, whatever follows it. -/
theorem token {t : Token} (hk : t.kind ≠ .eof) (hQ : Runs D Q last pulls s)
    (hD : ∀ u ∈ D, t.kind :: u ∈ E)
    (h : ∀ last pulls a s' rest, (Q last pulls).Ends s a s' rest →
      (P last (.ok t :: pulls)).Ends s a s' rest) : Runs E P last (.ok t :: pulls) s := by
  have hE : ∀ v ∈ ({[t.kind]} * D : Language TokenKind), v ∈ E := by
    rintro _ ⟨_, rfl, u, hu, rfl⟩
    exact hD u hu
  cases hQ with
  | faulty ts rest hp hts he hq =>
    exact .faulty (t :: ts) rest (by rw [hp]; rfl) (List.forall_mem_cons.mpr ⟨hk, hts⟩) he
      (h _ _ (.error _) _ rest hq)
  | settled ts rest a s' hp hts hf hq =>
    exact .settled (t :: ts) rest a s' (by rw [hp]; rfl) (List.forall_mem_cons.mpr ⟨hk, hts⟩)
      ((hf.mul (Set.mem_singleton [t.kind])).mono hE) fun last' rest' hs =>
        h _ _ _ _ _ (hq last' rest' hs)

/-! ## Runs one behind the other -/

/-- **Runs one behind the other.** The parser `R` does what `P` does, and behind a result of it what
`Q` does. -/
theorem seq {Q : α → Token → (pulls : List Pull) → Reading σ (bound' pulls) β}
    {R : Token → (pulls : List Pull) → Reading σ (bound'' pulls) β} (hl : last.kind = .eof)
    (hP : Runs D P last pulls s) (hE : ∃ w, w ∈ E)
    (hQ : ∀ a s' rest, (P last pulls).Yields s a s' rest → Runs E (Q a) last rest s')
    (hR : ∀ last pulls e s', P last pulls s = ⟨s', .error e⟩ → R last pulls s = ⟨s', .error e⟩)
    (hR' : ∀ last pulls a s₁ rest b s' rest', (P last pulls).Yields s a s₁ rest →
      (Q a last rest).Ends s₁ b s' rest' → (R last pulls).Ends s b s' rest') :
    Runs (D * E) R last pulls s := by
  cases hP with
  | faulty ts rest hp hts he hp' => exact .faulty ts rest hp hts he (hR _ _ _ _ hp')
  | settled ts rest a s₁ hp hts hf hp' =>
    cases a with
    | error e =>
      exact .settled ts rest (.error e) s₁ hp hts (hf.mul_of_error hE) fun last' rest' hs =>
        hR _ _ _ _ (hp' last' rest' hs)
    | ok a =>
      -- `Q` runs on what `P` leaves, and what `Q` sees first is what `P` saw last
      have hy : (P last pulls).Yields s a s₁ rest := by
        rw [hp]
        exact hp' last rest ⟨hl, fun _ => id⟩
      cases hQ a s₁ rest hy with
      | faulty us rest₁ hr hus he hq =>
        exact .faulty (ts ++ us) rest₁ (by rw [hp, hr]; simp) (List.forall_mem_append.mpr ⟨hts, hus⟩)
          he (hR' _ _ _ _ _ (.error _) _ rest₁ hy hq)
      | settled us rest₁ b s' hr hus hg hq =>
        refine .settled (ts ++ us) rest₁ b s' (by rw [hp, hr]; simp)
          (List.forall_mem_append.mpr ⟨hts, hus⟩) ?_ fun last' rest' hs => ?_
        · rw [List.map_append]
          exact hg.mul hf
        · rw [List.map_append, List.append_assoc]
          exact hR' _ _ _ _ _ _ _ _ (hp' last' _ (hr ▸ hs.append us)) (hq last' rest' hs)

section

variable {P : Token → (pulls : List Pull) → Reading σ pulls.length α}

theorem bind {Q : α → Token → (pulls : List Pull) → Reading σ pulls.length β} (hl : last.kind = .eof)
    (hP : Runs D P last pulls s) (hE : ∃ w, w ∈ E)
    (hQ : ∀ a s' rest, rest.length < pulls.length → Runs E (Q a) last rest s') :
    Runs (D * E) (fun last pulls => (P last pulls).bind fun a rest _ => Q a last rest) last pulls s :=
  hP.seq hl hE (fun a s' rest hy => hQ a s' rest hy.1) (fun _ _ _ _ h => Reading.glue_error h _)
    fun _ _ _ _ _ _ _ _ hy h => hy.glue (h.weaken _)

theorem andThen {Q : α → Token → (pulls : List Pull) → Reading σ (pulls.length + 1) β}
    (hl : last.kind = .eof) (hP : Runs D P last pulls s) (hE : ∃ w, w ∈ E)
    (hQ : ∀ a s' rest, rest.length < pulls.length → Runs E (Q a) last rest s') :
    Runs (D * E) (fun last pulls => (P last pulls).andThen fun a rest _ => Q a last rest) last pulls
      s :=
  hP.seq hl hE (fun a s' rest hy => hQ a s' rest hy.1) (fun _ _ _ _ h => Reading.glue_error h _)
    fun _ _ _ _ _ _ _ _ hy h => hy.glue (h.weaken _)

end

theorem finish {P : Token → (pulls : List Pull) → Reading σ (pulls.length + 1) α}
    {Q : α → Token → (pulls : List Pull) → Reading σ pulls.length β} (hl : last.kind = .eof)
    (hP : Runs D P last pulls s) (hE : ∃ w, w ∈ E)
    (hQ : ∀ a s' rest, rest.length < pulls.length + 1 → Runs E (Q a) last rest s') :
    Runs (D * E) (fun last pulls => (P last pulls).finish fun a rest _ => Q a last rest) last pulls
      s :=
  hP.seq hl hE (fun a s' rest hy => hQ a s' rest hy.1) (fun _ _ _ _ h => Reading.glue_error h _)
    fun _ _ _ _ _ _ _ _ hy h => hy.glue (h.weaken _)

theorem map (hP : Runs D P last pulls s) (f : α → β) :
    Runs D (fun last pulls => (P last pulls).map f) last pulls s := by
  cases hP with
  | faulty ts rest hp hts he h => exact .faulty ts rest hp hts he (Reading.glue_error h _)
  | settled ts rest a s' hp hts hf h =>
    cases a with
    | error e =>
      have hf' := hf.mul_of_error (β := β) ⟨[], Language.nil_mem_one⟩
      rw [mul_one] at hf'
      exact .settled ts rest (.error e) s' hp hts hf' fun last' rest' hs =>
        Reading.glue_error (h last' rest' hs) _
    | ok a =>
      exact .settled ts rest (.ok (f a)) s' hp hts hf fun last' rest' hs =>
        Reading.yields_map.mpr ⟨a, h last' rest' hs, rfl⟩

/-! ## Names -/

section

variable {check : NameCheck σ}

theorem after (hc : check.RefusesNames) {event : NameEvent}
    (hP : ∀ s₁, check s event = .ok s₁ → Runs D P last pulls s₁) :
    Runs D (fun last pulls => (P last pulls).after check event) last pulls s := by
  cases he : check s event with
  | error e =>
    refine .settled [] pulls (.error e) s rfl (List.forall_mem_nil _) ?_ fun last' rest' _ => ?_
    · match e with
      | .unexpected t d => exact absurd he (hc s event t d)
      | .duplicate _ | .undeclared _ => trivial
    · simp only [Reading.Ends, Reading.after, he]
  | ok s₁ =>
    have h (last : Token) (pulls : List Pull) :
        (P last pulls).after check event s = P last pulls s₁ := by rw [Reading.after, he]
    cases hP s₁ he with
    | faulty ts rest hp hts hr hp' => exact .faulty ts rest hp hts hr ((h _ _).trans hp')
    | settled ts rest a s' hp hts hf hp' =>
      refine .settled ts rest a s' hp hts hf fun last' rest' hs => ?_
      cases a with
      | error e => exact (h _ _).trans (hp' last' rest' hs)
      | ok a => exact Reading.yields_after.mpr ⟨s₁, he, hp' last' rest' hs⟩

theorem followed (hl : last.kind = .eof) (hc : check.RefusesNames) {event : NameEvent}
    (hP : Runs D P last pulls s) :
    Runs D (fun last pulls => (P last pulls).followed check event) last pulls s := by
  have hQ (a : α) (s' : σ) (rest : List Pull) :
      Runs 1 (fun _ pulls => (Reading.stay a pulls).after check event) last rest s' :=
    after hc fun s₁ _ => stay Language.nil_mem_one fun _ _ _ => Reading.yields_stay.mpr ⟨rfl, rfl, rfl⟩
  rw [← mul_one D]
  refine hP.seq hl ⟨[], Language.nil_mem_one⟩ (fun a s' rest _ => hQ a s' rest)
    (fun _ _ _ _ h => Reading.glue_error h _) ?_
  intro last pulls a s₁ rest b s' rest' hy h
  refine hy.glue ?_
  cases b with
  | ok b =>
    simp only [Reading.Ends, Reading.yields_after, Reading.yields_stay, Reading.yields_done] at h ⊢
    exact h
  | error e =>
    simp only [Reading.Ends, Reading.after] at h ⊢
    cases he : check s₁ event with
    | error e =>
      rw [he] at h
      cases h
      rfl
    | ok s₂ =>
      rw [he] at h
      cases h

end

/-! ## Single tokens -/

theorem look {next : Token → Token → (pulls : List Pull) → Reading σ (bound pulls) α}
    (hl : last.kind = .eof)
    (h : ∀ t, peek last pulls = .ok t → Runs D (next t) last pulls s) :
    Runs D (fun last pulls => Parse.look last pulls fun t => next t last pulls) last pulls s := by
  cases ht : peek last pulls with
  | error e => exact .fault ht (by rw [Parse.look, ht]; rfl)
  | ok t =>
    refine (h t ht).choose hl ht fun last pulls a s' rest _ ht h => ?_
    rw [Parse.look, ht]
    exact h

theorem eat (kind : TokenKind) (hl : last.kind = .eof) (hk : kind ≠ .eof) :
    Runs {[kind]} (fun last pulls => Parse.eat last kind pulls) last pulls s := by
  have refused {last : Token} {pulls : List Pull} {t : Token} (ht : peek last pulls = .ok t)
      (hne : t.kind ≠ kind) :
      Parse.eat last kind pulls s = ⟨s, .error (.unexpected t (some (.expected kind)))⟩ := by
    rcases pulls with _ | ⟨pull, pulls⟩ <;> cases ht
    · rfl
    · rw [Parse.eat, if_neg hne]
      rfl
  rcases pulls with _ | ⟨e | t, pulls⟩
  · exact .refuse rfl ⟨[kind], rfl⟩ fun _ _ _ h => refused h (hl ▸ hk.symm)
  · exact .fault rfl rfl
  · by_cases ht : t.kind = kind
    · exact .settled [t] pulls (.ok t) s rfl (List.forall_mem_singleton.mpr (ht ▸ hk))
        (congrArg (fun k => [k]) ht) fun _ _ _ => Parse.yields_eat.mpr ⟨rfl, ht, rfl⟩
    · exact .refuse rfl ⟨[kind], rfl⟩ fun _ _ _ h => refused h ht

end Runs

end IntLang
