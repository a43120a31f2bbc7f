import IntLang.Proofs.Syntax.Words
import Mathlib.Data.List.Forall2

/-!
# Readings of the same words

Tokens with one word differ in their places only, and so do errors about them. Readings are alike if
from the same names they come to the same names and to results, or errors, that differ in places only.
Every combinator makes alike readings of alike ones.

* `Pull.Alike`, `CompileError.Alike`: the same pull, the same error, at another place;
* `Reading.Alike`, with one lemma for each combinator;
* `Parse.alike_eat`, `Parse.alike_look`: one token taken, one token seen.
-/

namespace IntLang

/-! ## Places -/

/-- The same error, about a token with the same word. -/
inductive CompileError.Alike : CompileError → CompileError → Prop
  | unexpected {t t' : Token} (h : t.word = t'.word) (d : Option Detail) :
    Alike (.unexpected t d) (.unexpected t' d)
  | duplicate (name : UnitText) : Alike (.duplicate name) (.duplicate name)
  | undeclared (name : UnitText) : Alike (.undeclared name) (.undeclared name)

/-- The same pull, with the same word. -/
inductive Pull.Alike : Pull → Pull → Prop
  | token {t t' : Token} (h : t.word = t'.word) : Alike (.ok t) (.ok t')
  | fault {e e' : CompileError} (h : e.Alike e') : Alike (.error e) (.error e')

theorem CompileError.Alike.refl : ∀ e : CompileError, e.Alike e
  | .unexpected _ d => .unexpected rfl d
  | .duplicate name => .duplicate name
  | .undeclared name => .undeclared name

theorem Token.kind_eq_of_word {t t' : Token} (h : t.word = t'.word) : t.kind = t'.kind :=
  congrArg Word.kind h

theorem Token.value_eq_of_word {t t' : Token} (h : t.word = t'.word) : t.value = t'.value :=
  congrArg Word.value h

/-- The same pulls, one by one. -/
abbrev Pulls.Alike : List Pull → List Pull → Prop := List.Forall₂ Pull.Alike

theorem Pulls.alike_of_words {ts ts' : List Token} (h : ts.map Token.word = ts'.map Token.word) :
    Pulls.Alike (ts.map .ok) (ts'.map .ok) := by
  rw [← List.forall₂_eq_eq_eq, List.forall₂_map_left_iff, List.forall₂_map_right_iff] at h
  rw [Pulls.Alike, List.forall₂_map_left_iff, List.forall₂_map_right_iff]
  exact h.imp fun _ _ => Pull.Alike.token

theorem Pulls.Alike.fault {e : CompileError} {rest pulls' : List Pull}
    (h : Pulls.Alike (.error e :: rest) pulls') :
    ∃ e' rest', pulls' = .error e' :: rest' ∧ e.Alike e' ∧ Pulls.Alike rest rest' := by
  obtain ⟨_, rest', ⟨he⟩, hr, rfl⟩ := List.forall₂_cons_left_iff.mp h
  exact ⟨_, rest', rfl, ‹_›, hr⟩

theorem Pulls.Alike.token {t : Token} {rest pulls' : List Pull}
    (h : Pulls.Alike (.ok t :: rest) pulls') :
    ∃ t' rest', pulls' = .ok t' :: rest' ∧ t.word = t'.word ∧ Pulls.Alike rest rest' := by
  obtain ⟨_, rest', ⟨ht⟩, hr, rfl⟩ := List.forall₂_cons_left_iff.mp h
  exact ⟨_, rest', rfl, ‹_›, hr⟩

variable {σ α α' β β' : Type} {m m' n n' : Nat}

/-- The same place in the names, and the same outcome. -/
inductive Reached.Alike (R : α → α' → Prop) : Reached σ n α → Reached σ n' α' → Prop
  | yield (s : σ) {a : α} {a' : α'} (ha : R a a') {rest : { rest : List Pull // rest.length < n }}
    {rest' : { rest : List Pull // rest.length < n' }} (hr : Pulls.Alike rest.1 rest'.1) :
    Alike R ⟨s, .ok (a, rest)⟩ ⟨s, .ok (a', rest')⟩
  | failure (s : σ) {e e' : CompileError} (he : e.Alike e') : Alike R ⟨s, .error e⟩ ⟨s, .error e'⟩

/-! ## Combinators -/

namespace Reading

def Alike (R : α → α' → Prop) (r : Reading σ n α) (r' : Reading σ n' α') : Prop :=
  ∀ s, Reached.Alike R (r s) (r' s)

namespace Alike

variable {R : α → α' → Prop} {S : β → β' → Prop} {e e' : CompileError}

theorem fail (h : e.Alike e') : Alike R (.fail e : Reading σ n α) (.fail e' : Reading σ n' α') :=
  fun s => .failure s h

theorem done {a : α} {a' : α'} (ha : R a a') {rest rest' : List Pull} (hr : Pulls.Alike rest rest')
    (h : rest.length < n) (h' : rest'.length < n') :
    Alike R (.done a rest h : Reading σ n α) (.done a' rest' h') := fun s => .yield s ha hr

theorem stay {a : α} {a' : α'} (ha : R a a') {pulls pulls' : List Pull}
    (h : Pulls.Alike pulls pulls') : Alike R (.stay a pulls : Reading σ _ α) (.stay a' pulls') :=
  done ha h _ _

theorem glue {r : Reading σ m α} {r' : Reading σ m' α'}
    {next : α → (rest : List Pull) → rest.length < m → Reading σ n β}
    {next' : α' → (rest : List Pull) → rest.length < m' → Reading σ n' β'} (hr : Alike R r r')
    (hn : ∀ a a' rest rest' h h', R a a' → Pulls.Alike rest rest' →
      Alike S (next a rest h) (next' a' rest' h')) : Alike S (r.glue next) (r'.glue next') := by
  intro s
  unfold Reading.glue
  have hs := hr s
  generalize r s = reached, r' s = reached' at hs
  cases hs with
  | yield s ha hr => exact hn _ _ _ _ _ _ ha hr s
  | failure s he => exact .failure s he

section

variable {r : Reading σ n α} {r' : Reading σ n' α'} {check : NameCheck σ} {event : NameEvent}

theorem weaken (hr : Alike R r r') (h : n ≤ m) (h' : n' ≤ m') :
    Alike R (r.weaken h) (r'.weaken h') :=
  hr.glue fun _ _ _ _ _ _ ha hr => done ha hr _ _

theorem loose (hr : Alike R r r') : Alike R r.loose r'.loose := hr.weaken _ _

theorem map {f : α → β} {f' : α' → β'} (hr : Alike R r r') (hf : ∀ a a', R a a' → S (f a) (f' a')) :
    Alike S (r.map f) (r'.map f') :=
  hr.glue fun _ _ _ _ _ _ ha hr => done (hf _ _ ha) hr _ _

theorem after (hr : Alike R r r') : Alike R (r.after check event) (r'.after check event) := by
  intro s
  unfold Reading.after
  cases check s event with
  | ok s₁ => exact hr s₁
  | error e => exact .failure s (.refl e)

theorem followed (hr : Alike R r r') : Alike R (r.followed check event) (r'.followed check event) :=
  hr.glue fun _ _ _ _ _ _ ha hr => (done ha hr _ _).after

theorem bind {next : α → (rest : List Pull) → rest.length < n → Reading σ rest.length β}
    {next' : α' → (rest : List Pull) → rest.length < n' → Reading σ rest.length β'}
    (hr : Alike R r r')
    (hn : ∀ a a' rest rest' h h', R a a' → Pulls.Alike rest rest' →
      Alike S (next a rest h) (next' a' rest' h')) : Alike S (r.bind next) (r'.bind next') :=
  hr.glue fun _ _ _ _ _ _ ha hr => (hn _ _ _ _ _ _ ha hr).weaken _ _

theorem andThen {next : α → (rest : List Pull) → rest.length < n → Reading σ (rest.length + 1) β}
    {next' : α' → (rest : List Pull) → rest.length < n' → Reading σ (rest.length + 1) β'}
    (hr : Alike R r r')
    (hn : ∀ a a' rest rest' h h', R a a' → Pulls.Alike rest rest' →
      Alike S (next a rest h) (next' a' rest' h')) : Alike S (r.andThen next) (r'.andThen next') :=
  hr.glue fun _ _ _ _ _ _ ha hr => (hn _ _ _ _ _ _ ha hr).weaken _ _

theorem finish {r : Reading σ (n + 1) α} {r' : Reading σ (n' + 1) α'}
    {next : α → (rest : List Pull) → rest.length < n + 1 → Reading σ rest.length β}
    {next' : α' → (rest : List Pull) → rest.length < n' + 1 → Reading σ rest.length β'}
    (hr : Alike R r r')
    (hn : ∀ a a' rest rest' h h', R a a' → Pulls.Alike rest rest' →
      Alike S (next a rest h) (next' a' rest' h')) : Alike S (r.finish next) (r'.finish next') :=
  hr.glue fun _ _ _ _ _ _ ha hr => (hn _ _ _ _ _ _ ha hr).weaken _ _

end

end Alike

end Reading

/-! ## Single tokens -/

open TokenSource (peek)

/-- What is seen next is alike, at the end as before it. -/
theorem Pulls.Alike.peek {last last' : Token} {pulls pulls' : List Pull} (hl : last.word = last'.word)
    (h : Pulls.Alike pulls pulls') : Pull.Alike (peek last pulls) (peek last' pulls') := by
  cases h with
  | nil => exact .token hl
  | cons h _ => exact h

namespace Parse

variable {last last' : Token} {pulls pulls' : List Pull} {R : α → α' → Prop}

/-- Tokens are taken for their words. -/
def SameWord (t t' : Token) : Prop := t.word = t'.word

theorem alike_look {next : Token → Reading σ n α} {next' : Token → Reading σ n' α'}
    (hl : last.word = last'.word) (h : Pulls.Alike pulls pulls')
    (hn : ∀ t t' : Token, t.word = t'.word → Reading.Alike R (next t) (next' t')) :
    Reading.Alike R (look last pulls next) (look last' pulls' next') := by
  unfold look
  have ht := h.peek hl
  generalize peek last pulls = pull, peek last' pulls' = pull' at ht
  cases ht with
  | token ht => exact hn _ _ ht
  | fault he => exact .fail he

theorem alike_eat (kind : TokenKind) (hl : last.word = last'.word) (h : Pulls.Alike pulls pulls') :
    Reading.Alike SameWord (eat last kind pulls : Reading σ _ _) (eat last' kind pulls') := by
  cases h with
  | nil => exact .fail (.unexpected hl _)
  | cons h hr =>
    cases h with
    | fault he => exact .fail he
    | token ht =>
      simp only [eat, Token.kind_eq_of_word ht]
      split
      · exact .stay (R := SameWord) ht hr
      · exact .fail (.unexpected ht _)

end Parse

end IntLang
