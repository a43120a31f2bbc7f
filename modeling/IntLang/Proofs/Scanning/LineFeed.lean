import IntLang.Proofs.Reading.Alike
import IntLang.Proofs.Scanning.Tiles

/-!
# Texts with a line feed between them

No lexeme and no comment reaches over a line feed, so two texts with one between them are scanned one
after the other, faulty or not. Where a text stands does not matter to its words.

* `Lexeme.read_lineFeed`, `triviaLength_lineFeed`: what stands behind a line feed has no say;
* **`Cursor.pulls_before`**: the pulls of the one text, and then those of the other;
* `Cursor.alike_pulls`: the same text at two places;
* `Scans.lineFeed`, `scans_of_pulls`: texts without lexical errors;
* `Scans.behind_lineFeed`, `Scans.behind_token`: what is left of them.
-/

namespace IntLang

open CodeUnit

variable {u : CodeUnit} {us vs : UnitText}

/-! ## Lexemes -/

theorem stringBody_lineFeed (escaped : Bool) (us vs : UnitText) :
    stringBody escaped (us ++ unit '\n' :: vs) = stringBody escaped us := by
  induction us generalizing escaped with
  | nil => rfl
  | cons u us ih => rw [List.cons_append, stringBody, stringBody, ih]

theorem takeWhile_lineFeed {p : CodeUnit → Bool} (hp : p (unit '\n') = false) (us vs : UnitText) :
    (us ++ unit '\n' :: vs).takeWhile p = us.takeWhile p := by
  induction us with
  | nil => rw [List.nil_append, List.takeWhile_cons, hp, if_neg Bool.false_ne_true, List.takeWhile_nil]
  | cons u us ih => rw [List.cons_append, List.takeWhile_cons, List.takeWhile_cons, ih]

theorem dropWhile_lineFeed {p : CodeUnit → Bool} (hp : p (unit '\n') = false) (us vs : UnitText) :
    (us ++ unit '\n' :: vs).dropWhile p = us.dropWhile p ++ unit '\n' :: vs := by
  induction us with
  | nil => rw [List.nil_append, List.dropWhile_cons, hp, if_neg Bool.false_ne_true]; rfl
  | cons u us ih =>
    rw [List.cons_append, List.dropWhile_cons, List.dropWhile_cons, ih]
    split
    · rfl
    · rfl

namespace Lexeme

theorem readString_lineFeed (us vs : UnitText) :
    readString (us ++ unit '\n' :: vs) = readString us := by
  rw [readString, readString, stringBody_lineFeed]

theorem readNumber_lineFeed (us vs : UnitText) :
    readNumber (us ++ unit '\n' :: vs) = readNumber us := by
  have hw : ((us.dropWhile isDigit ++ unit '\n' :: vs).head?.any isWordStart) =
      (us.dropWhile isDigit).head?.any isWordStart := by
    cases us.dropWhile isDigit <;> rfl
  rw [readNumber, readNumber, takeWhile_lineFeed rfl, takeWhile_lineFeed rfl, dropWhile_lineFeed rfl, hw]

theorem readWord_lineFeed (us vs : UnitText) : readWord (us ++ unit '\n' :: vs) = readWord us := by
  rw [readWord, readWord, takeWhile_lineFeed rfl]

theorem readSymbol_lineFeed (u : CodeUnit) (us vs : UnitText) :
    readSymbol u (us ++ unit '\n' :: vs) = readSymbol u us := by
  have hp : (us ++ unit '\n' :: vs).head?.bind (pairKind? u) = us.head?.bind (pairKind? u) := by
    cases us with
    | nil =>
      rw [List.nil_append, List.head?_cons, Option.bind_some, pairKind?, if_pos (by decide)]
      rfl
    | cons v us => rfl
  rw [readSymbol, readSymbol, hp]

theorem read_lineFeed (u : CodeUnit) (us vs : UnitText) :
    read u (us ++ unit '\n' :: vs) = read u us := by
  rw [read, read, readString_lineFeed, readSymbol_lineFeed, ← List.cons_append, readNumber_lineFeed,
    readWord_lineFeed]

/-- A lexeme is part of the text. -/
theorem length_read_le (u : CodeUnit) (us : UnitText) : (read u us).length ≤ (u :: us).length := by
  have htake (p : CodeUnit → Bool) : ((u :: us).takeWhile p).length ≤ (u :: us).length :=
    (List.takeWhile_prefix p).length_le
  unfold read
  split
  · exact Nat.succ_le_succ (stringBody_length_le false us)
  split
  · unfold readNumber
    dsimp only
    split
    · exact htake _
    · exact htake _
  split
  · exact htake _
  · unfold readSymbol
    split
    · next h =>
      cases us with
      | nil => cases h
      | cons v us => simp
    · split <;> simp

end Lexeme

/-! ## Trivia -/

theorem triviaLength_le (inComment : Bool) (us : UnitText) :
    triviaLength inComment us ≤ us.length := by
  induction us generalizing inComment with
  | nil => exact Nat.le_refl 0
  | cons u us ih =>
    have := ih (u != unit '\n')
    have := ih true
    have := ih false
    rw [triviaLength, List.length_cons]
    repeat' split
    all_goals omega

/-- Trivia that ends the one text goes on in the other. -/
theorem triviaLength_lineFeed (inComment : Bool) (us vs : UnitText) :
    triviaLength inComment (us ++ unit '\n' :: vs) =
      if triviaLength inComment us = us.length then us.length + 1 + triviaLength false vs
      else triviaLength inComment us := by
  induction us generalizing inComment with
  | nil =>
    cases inComment
    · exact Nat.add_comm _ _
    · exact Nat.add_comm _ _
  | cons u us ih =>
    have hslash : (us ++ unit '\n' :: vs).head? = some (unit '/') ↔ us.head? = some (unit '/') := by
      cases us with
      | nil => constructor <;> rintro ⟨⟩
      | cons v us => rfl
    -- one unit more on both sides, in a comment and in front of one
    have step (b : Bool) : triviaLength b (us ++ unit '\n' :: vs) + 1 =
        if triviaLength b us + 1 = us.length + 1 then us.length + 1 + 1 + triviaLength false vs
        else triviaLength b us + 1 := by
      simp only [ih, Nat.add_right_cancel_iff]
      split <;> omega
    rw [List.cons_append, triviaLength, triviaLength, List.length_cons]
    simp only [hslash]
    split
    · exact step _
    split
    · exact step _
    split
    · exact step _
    · rw [if_neg (by omega)]

/-! ## Pulls -/

namespace Cursor

/-- The cursor with a line feed and a further text behind its own. -/
def before (c : Cursor) (vs : UnitText) : Cursor := ⟨c.rest ++ unit '\n' :: vs, c.pos⟩

/-- The cursor at the further text. -/
def behind (c : Cursor) (vs : UnitText) : Cursor := ⟨vs, c.pos.advance (c.rest ++ [unit '\n'])⟩

variable {c : Cursor}

theorem skip_before {n : Nat} (h : n ≤ c.rest.length) (vs : UnitText) :
    (c.before vs).skip n = (c.skip n).before vs := by
  simp only [skip, before, List.drop_append_of_le_length h, List.take_append_of_le_length h]

theorem skip_behind (n : Nat) (vs : UnitText) : (c.skip n).behind vs = c.behind vs := by
  simp only [skip, behind, ← Position.advance_append, ← List.append_assoc, List.take_append_drop]

theorem skipTrivia_before (h : c.skipTrivia.rest ≠ []) (vs : UnitText) :
    (c.before vs).skipTrivia = c.skipTrivia.before vs := by
  have hne : triviaLength false c.rest ≠ c.rest.length := by
    intro he
    rw [skipTrivia, he] at h
    exact h (List.drop_length)
  have hlen : triviaLength false (c.before vs).rest = triviaLength false c.rest := by
    rw [before, triviaLength_lineFeed, if_neg hne]
  rw [skipTrivia, hlen, skip_before (triviaLength_le _ _)]
  rfl

theorem skipTrivia_before_of_nil (h : c.skipTrivia.rest = []) (vs : UnitText) :
    (c.before vs).skipTrivia = (c.behind vs).skipTrivia := by
  have he : triviaLength false c.rest = c.rest.length :=
    Nat.le_antisymm (triviaLength_le _ _) (List.drop_eq_nil_iff.mp h)
  have hlen : triviaLength false (c.before vs).rest =
      (c.rest ++ [unit '\n']).length + triviaLength false vs := by
    rw [before, triviaLength_lineFeed, if_pos he, List.length_append]
    rfl
  have hb : c.before vs = ⟨(c.rest ++ [unit '\n']) ++ vs, c.pos⟩ := by
    rw [before, List.append_assoc]
    rfl
  rw [skipTrivia, hlen, ← skip_skip, hb, skip_append]
  rfl

theorem take_before (h : c.rest ≠ []) (vs : UnitText) :
    (c.before vs).take = (c.take.1, c.take.2.before vs) := by
  obtain ⟨u, us, hc⟩ := List.exists_cons_of_ne_nil h
  have hr : (c.before vs).rest = u :: (us ++ unit '\n' :: vs) := by rw [before, hc]; rfl
  have hl : (Lexeme.read u us).length ≤ c.rest.length := hc ▸ Lexeme.length_read_le u us
  have ht : (c.before vs).token (Lexeme.read u us) = c.token (Lexeme.read u us) := by
    simp only [token, before, List.take_append_of_le_length hl]
  simp only [take, hr, hc, Lexeme.read_lineFeed, ht, skip_before hl]

/-- **Pulls of texts with a line feed between them**: first those of the one, then those of the other. -/
theorem pulls_before (c : Cursor) (vs : UnitText) :
    (c.before vs).pulls = (c.pulls.1 ++ (c.behind vs).pulls.1, (c.behind vs).pulls.2) := by
  by_cases h : c.skipTrivia.rest = []
  · rw [pulls_congr (skipTrivia_before_of_nil h vs), pulls.eq_1 c, dif_pos h]
    rfl
  · have hs := skipTrivia_before h vs
    have hne : (c.before vs).skipTrivia.rest ≠ [] := by
      rw [hs, before]
      simp
    have hn : (c.before vs).next = (c.next.1, c.next.2.before vs) := by
      rw [next, hs, take_before h]
      rfl
    have hb : c.next.2.behind vs = c.behind vs := by
      obtain ⟨u, us, hc⟩ := List.exists_cons_of_ne_nil h
      simp only [next, take, hc]
      rw [skip_behind, skipTrivia, skip_behind]
    have hlt := next_length_lt h
    rw [pulls, dif_neg hne, hn, pulls_before c.next.2 vs, hb, pulls.eq_1 c, dif_neg h]
    rfl
termination_by c.rest.length

/-- What is read does not depend on where it stands. -/
theorem alike_pulls (c d : Cursor) (h : c.rest = d.rest) :
    Pulls.Alike c.pulls.1 d.pulls.1 ∧ c.pulls.2.word = d.pulls.2.word := by
  have hs : c.skipTrivia.rest = d.skipTrivia.rest := by simp only [skipTrivia, skip, h]
  by_cases hc : c.skipTrivia.rest = []
  · rw [pulls, pulls.eq_1 d, dif_pos hc, dif_pos (hs ▸ hc)]
    exact ⟨.nil, rfl⟩
  · obtain ⟨u, us, hu⟩ := List.exists_cons_of_ne_nil hc
    have hw : (c.skipTrivia.token (Lexeme.read u us)).word =
        (d.skipTrivia.token (Lexeme.read u us)).word := by
      simp only [token, Token.word, hs]
    have hp : Pull.Alike c.next.1 d.next.1 := by
      simp only [next, take, ← hs, hu]
      cases (Lexeme.read u us).fault with
      | none => exact .token hw
      | some d => exact .fault (.unexpected hw _)
    have hr : c.next.2.rest = d.next.2.rest := by
      simp only [next, take, ← hs, hu]
      simp only [skip, hs]
    have hlt := next_length_lt hc
    obtain ⟨ha, hl⟩ := alike_pulls c.next.2 d.next.2 hr
    rw [pulls, pulls.eq_1 d, dif_neg hc, dif_neg (hs ▸ hc)]
    exact ⟨.cons hp ha, hl⟩
termination_by c.rest.length

end Cursor

/-! ## Texts without lexical errors -/

theorem Pulls.Alike.tokens {ts : List Token} {pulls : List Pull}
    (h : Pulls.Alike (ts.map .ok) pulls) :
    ∃ ts' : List Token, pulls = ts'.map .ok ∧ ts'.map Token.word = ts.map Token.word := by
  induction ts generalizing pulls with
  | nil => exact ⟨[], List.forall₂_nil_left_iff.mp h, rfl⟩
  | cons t ts ih =>
    obtain ⟨t', rest, rfl, ht, hr⟩ := h.token
    obtain ⟨ts', rfl, hw⟩ := ih hr
    exact ⟨t' :: ts', rfl, by rw [List.map_cons, List.map_cons, ht, hw]⟩

theorem scans_of_pulls {ts : List Token} (h : (Cursor.start us).pulls.1 = ts.map .ok) :
    Scans us (ts.map Token.word) := by
  intro pos
  obtain ⟨ha, hl⟩ := Cursor.alike_pulls (.start us) ⟨us, pos⟩ rfl
  obtain ⟨-, -, hlast⟩ := Cursor.tiles_pulls (.start us) [] rfl
  rw [h] at ha
  obtain ⟨ts', hp, hw⟩ := ha.tokens
  refine ⟨ts', _, Prod.ext hp rfl, hw, ?_⟩
  rw [← Token.kind_eq_of_word hl, hlast]

/-- Behind a text without lexical errors, the other one is pulled as if it stood alone. -/
theorem Scans.pulls_lineFeed {ws : List Word} (h : Scans us ws) (vs : UnitText) :
    ∃ (ts : List Token) (source : TokenSource),
      TokenSource.ofText (us ++ unit '\n' :: vs) = ⟨ts.map .ok ++ source.pulls, source.last⟩ ∧
      ts.map Token.word = ws ∧ Pulls.Alike (TokenSource.ofText vs).pulls source.pulls ∧
      (TokenSource.ofText vs).last.word = source.last.word := by
  obtain ⟨ts, last, hp, hw, -⟩ := h .start
  have hj : (Cursor.start (us ++ unit '\n' :: vs)).pulls = _ := Cursor.pulls_before (.start us) vs
  obtain ⟨ha, hl⟩ := Cursor.alike_pulls (.start vs) ((Cursor.start us).behind vs) rfl
  refine ⟨ts, ⟨_, _⟩, ?_, hw, ha, hl⟩
  rw [TokenSource.ofText, hj, Cursor.start, hp]

theorem Scans.lineFeed {ws ws' : List Word} (hu : Scans us ws) (hv : Scans vs ws') :
    Scans (us ++ unit '\n' :: vs) (ws ++ ws') := by
  intro pos
  obtain ⟨ts, last, hp, rfl, -⟩ := hu pos
  obtain ⟨ts', last', hp', rfl, hk⟩ := hv ((Cursor.mk us pos).behind vs).pos
  have hj : (Cursor.mk (us ++ unit '\n' :: vs) pos).pulls = _ := Cursor.pulls_before ⟨us, pos⟩ vs
  refine ⟨ts ++ ts', last', ?_, List.map_append, hk⟩
  rw [hj, hp, List.map_append]
  exact congrArg (fun p : List Pull × Token => (ts.map .ok ++ p.1, p.2)) hp'

/-! ## Behind a part of a text -/

theorem exists_scans_of_pulls {c : Cursor} {ts : List Token} (h : c.pulls.1 = ts.map .ok) :
    ∃ ws, Scans c.rest ws := by
  obtain ⟨ha, -⟩ := Cursor.alike_pulls c (.start c.rest) rfl
  rw [h] at ha
  obtain ⟨ts', hp, -⟩ := ha.tokens
  exact ⟨_, scans_of_pulls hp⟩

/-- A text without lexical errors has none behind a line feed. -/
theorem Scans.behind_lineFeed {ws : List Word} (h : Scans (us ++ unit '\n' :: vs) ws) :
    ∃ ws', Scans vs ws' := by
  obtain ⟨ts, last, hp, -⟩ := h .start
  have hj : (Cursor.start (us ++ unit '\n' :: vs)).pulls = _ := Cursor.pulls_before (.start us) vs
  obtain ⟨front, rest, -, -, hr⟩ := List.map_eq_append_iff.mp (congrArg Prod.fst (hp.symm.trans hj))
  exact exists_scans_of_pulls hr.symm

/-- Nor behind its first token. -/
theorem Scans.behind_token {ws : List Word} {kind : TokenKind} (us : UnitText)
    (ht : triviaLength false (u :: us ++ vs) = 0)
    (hl : Lexeme.read u (us ++ vs) = ⟨kind, us.length + 1, none⟩) (h : Scans (u :: us ++ vs) ws) :
    ∃ ws', Scans vs ws' := by
  obtain ⟨ts, last, hp, -⟩ := h .start
  have hs := Cursor.skip_append (u :: us) vs .start
  rw [List.length_cons] at hs
  rw [Cursor.pulls_token rfl ht hl, hs] at hp
  obtain ⟨t, ts, -, -, hr⟩ := List.map_eq_cons_iff.mp (congrArg Prod.fst hp).symm
  exact exists_scans_of_pulls hr.symm

end IntLang
