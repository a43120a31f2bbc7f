import IntLang.Proofs.Syntax.Words

/-!
# What a text scans to

A text scans to words if they are what its tokens say, wherever it stands and with no error up to its
end. Such a text is built from its end: a blank in front changes nothing, a lexeme in front adds its
word.

* `Scans.blank`, `Scans.token`: what may be put in front;
* `Cursor.exists_read_of_pulls`: what a first token is;
* `lex_eq_ok`, `Text.words_eq_ok`, `Scans.words`: a whole text.
-/

namespace IntLang

open CodeUnit

/-- The words of a text, or its first lexical error. -/
def Text.words (text : UnitText) : Except CompileError (List Word) :=
  (lex text).map fun tokens => tokens.dropLast.map Token.word

def Scans (text : UnitText) (words : List Word) : Prop :=
  ∀ pos, ∃ (ts : List Token) (last : Token), Cursor.pulls ⟨text, pos⟩ = (ts.map .ok, last) ∧
    ts.map Token.word = words ∧ last.kind = .eof

/-! ## In front of a text -/

namespace Cursor

@[simp] theorem skip_zero (c : Cursor) : c.skip 0 = c := by simp [skip]

theorem skip_append (us vs : UnitText) (pos : Position) :
    (Cursor.mk (us ++ vs) pos).skip us.length = ⟨vs, pos.advance us⟩ := by simp [skip]

/-- Pulls start behind trivia. -/
theorem pulls_congr {c d : Cursor} (h : c.skipTrivia = d.skipTrivia) : c.pulls = d.pulls := by
  rw [pulls.eq_1 c, pulls.eq_1 d]
  simp only [next, h]

theorem skipTrivia_blank {u : CodeUnit} (hu : isTrivial u = true) (us : UnitText) (pos : Position) :
    (Cursor.mk (u :: us) pos).skipTrivia = (Cursor.mk us (pos.advance [u])).skipTrivia := by
  simp only [skipTrivia, triviaLength, hu, Bool.false_eq_true, if_false, if_true]
  rw [Nat.add_comm, ← skip_skip]
  rfl

/-- A token stands at the front. -/
theorem pulls_token {c : Cursor} {u : CodeUnit} {us : UnitText} {kind : TokenKind} {n : Nat}
    (hc : c.rest = u :: us) (ht : triviaLength false (u :: us) = 0)
    (hl : Lexeme.read u us = ⟨kind, n, none⟩) :
    c.pulls = (.ok (c.token ⟨kind, n, none⟩) :: (c.skip n).pulls.1, (c.skip n).pulls.2) := by
  have hs : c.skipTrivia = c := by rw [skipTrivia, hc, ht, skip_zero]
  rw [pulls, dif_neg (by simp [hs, hc])]
  simp only [next, take, hs, hc, hl]

/-- The first token is what stands behind trivia. -/
theorem exists_read_of_pulls {c : Cursor} {t : Token} {pulls : List Pull} {last : Token}
    (h : c.pulls = (.ok t :: pulls, last)) :
    ∃ u us n, c.skipTrivia.rest = u :: us ∧ Lexeme.read u us = ⟨t.kind, n, none⟩ ∧
      t.value = (u :: us).take n ∧ (c.skipTrivia.skip n).pulls = (pulls, last) := by
  rw [Cursor.pulls] at h
  split at h
  · cases h
  · next hne =>
    obtain ⟨u, us, hc⟩ := List.exists_cons_of_ne_nil hne
    simp only [next, take, hc] at h
    obtain ⟨hcons, rfl⟩ := Prod.mk.inj h
    obtain ⟨ht, hp⟩ := List.cons.inj hcons
    rcases hl : Lexeme.read u us with ⟨kind, n, _ | detail⟩
    · rw [hl] at ht hp
      cases ht
      exact ⟨u, us, n, hc, hl, by rw [token, hc], by rw [← hp]⟩
    · rw [hl] at ht
      cases ht

end Cursor

namespace Scans

variable {us vs : UnitText} {ws : List Word} {u : CodeUnit} {kind : TokenKind}

theorem nil : Scans [] [] := by
  intro pos
  refine ⟨[], Cursor.endToken ⟨[], pos⟩, ?_, rfl, rfl⟩
  rw [Cursor.pulls, dif_pos (by simp [Cursor.skipTrivia, Cursor.skip])]
  rfl

theorem blank (hu : isTrivial u = true) (h : Scans us ws) : Scans (u :: us) ws := by
  intro pos
  rw [Cursor.pulls_congr (Cursor.skipTrivia_blank hu us pos)]
  exact h _

theorem token (us : UnitText) (ht : triviaLength false (u :: us ++ vs) = 0)
    (hl : Lexeme.read u (us ++ vs) = ⟨kind, us.length + 1, none⟩) (h : Scans vs ws) :
    Scans (u :: us ++ vs) (⟨kind, u :: us⟩ :: ws) := by
  intro pos
  obtain ⟨ts, last, hp, hw, hk⟩ := h (pos.advance (u :: us))
  have hs := Cursor.skip_append (u :: us) vs pos
  rw [List.length_cons] at hs
  refine ⟨⟨kind, u :: us, pos⟩ :: ts, last, ?_, by rw [List.map_cons, hw]; rfl, hk⟩
  rw [Cursor.pulls_token rfl ht hl, hs, hp]
  simp [Cursor.token]

end Scans

/-! ## A whole text -/

theorem mapM_id_eq_ok {pulls : List Pull} {ts : List Token} :
    pulls.mapM id = (.ok ts : Except CompileError (List Token)) ↔ pulls = ts.map .ok := by
  induction pulls generalizing ts with
  | nil =>
    rw [List.mapM_nil, eq_comm (a := []), List.map_eq_nil_iff]
    exact ⟨fun h => (Except.ok.inj h).symm, fun h => by rw [h]; rfl⟩
  | cons pull pulls ih =>
    rw [List.mapM_cons]
    cases pull with
    | error e =>
      constructor
      · intro h
        cases h
      · intro h
        cases ts <;> cases h
    | ok t =>
      constructor
      · intro h
        cases hm : pulls.mapM id with
        | error e =>
          rw [hm] at h
          cases h
        | ok us =>
          rw [hm] at h
          cases h
          rw [ih.mp hm, List.map_cons]
      · intro h
        cases ts with
        | nil => cases h
        | cons t' ts =>
          cases h
          rw [ih.mpr rfl]
          rfl

theorem lex_eq_ok {us : UnitText} {tokens : List Token} : lex us = .ok tokens ↔
    ∃ ts last, (Cursor.start us).pulls = (ts.map .ok, last) ∧ tokens = ts ++ [last] := by
  unfold lex
  rcases hp : (Cursor.start us).pulls with ⟨pulls, last⟩
  constructor
  · intro h
    cases hm : pulls.mapM id with
    | error e =>
      simp only [hm] at h
      cases h
    | ok ts =>
      simp only [hm] at h
      cases h
      exact ⟨ts, last, by rw [mapM_id_eq_ok.mp hm], rfl⟩
  · rintro ⟨ts, last', h, rfl⟩
    obtain ⟨rfl, rfl⟩ := Prod.mk.inj h
    simp only [mapM_id_eq_ok.mpr rfl]
    rfl

theorem mapM_id_eq_error {e : CompileError} (ts : List Token) (more : List Pull) :
    (ts.map .ok ++ .error e :: more : List Pull).mapM id =
      (.error e : Except CompileError (List Token)) := by
  induction ts with
  | nil => rfl
  | cons t ts ih =>
    rw [List.map_cons, List.cons_append, List.mapM_cons, ih]
    rfl

theorem lex_eq_error {us : UnitText} {e : CompileError} {ts : List Token} {more : List Pull}
    (h : (Cursor.start us).pulls.1 = ts.map .ok ++ .error e :: more) : lex us = .error e := by
  rw [lex]
  simp only [h, mapM_id_eq_error]
  rfl

/-- Steps are tokens throughout or up to a first error. -/
theorem Pull.ok_or_split (pulls : List Pull) :
    (∃ ts : List Token, pulls = ts.map .ok) ∨
      ∃ (ts : List Token) (e : CompileError) (more : List Pull), pulls = ts.map .ok ++ .error e :: more := by
  induction pulls with
  | nil => exact .inl ⟨[], rfl⟩
  | cons pull pulls ih =>
    cases pull with
    | error e => exact .inr ⟨[], e, pulls, rfl⟩
    | ok t =>
      obtain ⟨ts, rfl⟩ | ⟨ts, e, more, rfl⟩ := ih
      · exact .inl ⟨t :: ts, rfl⟩
      · exact .inr ⟨t :: ts, e, more, rfl⟩

theorem Text.words_eq_ok {us : UnitText} {ws : List Word} : words us = .ok ws ↔
    ∃ (ts : List Token) (last : Token), (Cursor.start us).pulls = (ts.map .ok, last) ∧
      ts.map Token.word = ws := by
  unfold words
  constructor
  · intro h
    cases hl : lex us with
    | error e =>
      rw [hl] at h
      cases h
    | ok tokens =>
      rw [hl] at h
      obtain ⟨ts, last, hp, rfl⟩ := lex_eq_ok.mp hl
      rw [Except.map, List.dropLast_concat] at h
      exact ⟨ts, last, hp, Except.ok.inj h⟩
  · rintro ⟨ts, last, hp, rfl⟩
    rw [lex_eq_ok.mpr ⟨ts, last, hp, rfl⟩, Except.map, List.dropLast_concat]

theorem Scans.words {us : UnitText} {ws : List Word} (h : Scans us ws) : Text.words us = .ok ws := by
  obtain ⟨ts, last, hp, hw, -⟩ := h .start
  exact Text.words_eq_ok.mpr ⟨ts, last, hp, hw⟩

theorem Scans.pulls_ofText {us : UnitText} {ws : List Word} (h : Scans us ws) :
    ∃ (ts : List Token) (last : Token), TokenSource.ofText us = ⟨ts.map .ok, last⟩ ∧
      ts.map Token.word = ws ∧ last.kind = .eof := by
  obtain ⟨ts, last, hp, hw, hk⟩ := h .start
  exact ⟨ts, last, by rw [TokenSource.ofText, Cursor.start, hp], hw, hk⟩

end IntLang
