import IntLang.Proofs.Scanning.LineFeed
import IntLang.Proofs.Scanning.Tokens

/-!
# Layouts

The tokens of a text may be laid out anew. With a blank behind each of them, or the end of the text,
every token is scanned as the same word again, since no lexeme takes a blank in that its own text does
not hold.

* `Layout`: texts in a row with trivia between them;
* `Scans.trivia`: trivia in front of a text;
* `Scans.lexeme`: a lexeme cut out of its text, in front of a blank;
* **`scans_layout`**: a layout of scanned tokens scans to their words.
-/

namespace IntLang

open CodeUnit

variable {u : CodeUnit} {us vs text : UnitText} {ws : List Word}

/-! ## Layouts -/

/-- What stands behind a text: trivia that starts with a blank and further texts, or trivia up to the
end, which starts with a blank if there is any. -/
inductive Spaced : List UnitText → UnitText → Prop
  | last {gap : UnitText} (hg : Trivia [] gap) (hb : Blanked gap) : Spaced [] gap
  | next {gap value text : UnitText} {values : List UnitText} (hg : Trivia (value ++ text) gap)
    (hb : Blanked gap) (hne : gap ≠ []) (h : Spaced values text) :
    Spaced (value :: values) (gap ++ value ++ text)

/-- Texts in a row, with trivia in front of the first one. -/
inductive Layout : List UnitText → UnitText → Prop
  | nothing {gap : UnitText} (hg : Trivia [] gap) : Layout [] gap
  | values {gap value text : UnitText} {values : List UnitText} (hg : Trivia (value ++ text) gap)
    (h : Spaced values text) : Layout (value :: values) (gap ++ value ++ text)

theorem Spaced.blanked {values : List UnitText} (h : Spaced values text) : Blanked text := by
  cases h with
  | last _ hb => exact hb
  | @next gap value text values _ hb hne =>
    intro u hu
    obtain ⟨v, gap, rfl⟩ := List.exists_cons_of_ne_nil hne
    exact hb u hu

theorem isTrivial_of_mem (hu : u ∈ [unit ' ', unit '\t', unit '\r', unit '\n']) :
    isTrivial u = true := by
  simp only [List.mem_cons, List.not_mem_nil, or_false] at hu
  rcases hu with rfl | rfl | rfl | rfl <;> rfl

theorem blanked_cons (hu : isTrivial u = true) : Blanked (u :: us) := by
  rintro _ ⟨⟩
  exact hu

/-- A blank between two texts is enough. -/
theorem Spaced.blank {value : UnitText} {values : List UnitText}
    (hu : u ∈ [unit ' ', unit '\t', unit '\r', unit '\n']) (h : Spaced values text) :
    Spaced (value :: values) (u :: value ++ text) :=
  .next (.blank hu .nil) (blanked_cons (isTrivial_of_mem hu)) (by simp) h

/-! ## Trivia -/

theorem triviaLength_comment {body : UnitText} (hb : unit '\n' ∉ body)
    (he : ∀ u ∈ us.head?, u = unit '\n') :
    triviaLength true (body ++ us) = body.length + triviaLength false us := by
  induction body with
  | nil =>
    cases us with
    | nil => rfl
    | cons u us =>
      obtain rfl := he u rfl
      exact (Nat.zero_add _).symm
  | cons u body ih =>
    simp only [List.mem_cons, not_or] at hb
    rw [List.cons_append, triviaLength, if_pos rfl, bne_iff_ne.mpr (Ne.symm hb.1), ih hb.2,
      List.length_cons]
    omega

theorem Cursor.skipTrivia_comment {body : UnitText} (hb : unit '\n' ∉ body)
    (he : ∀ u ∈ us.head?, u = unit '\n') (pos : Position) :
    (Cursor.mk (unit '/' :: unit '/' :: body ++ us) pos).skipTrivia =
      (Cursor.mk us (pos.advance (unit '/' :: unit '/' :: body))).skipTrivia := by
  have hlen : triviaLength false (unit '/' :: unit '/' :: body ++ us) =
      (unit '/' :: unit '/' :: body).length + triviaLength false us := by
    have hb' : unit '\n' ∉ unit '/' :: body := by
      simp only [List.mem_cons, not_or]
      exact ⟨by decide, hb⟩
    rw [List.cons_append, triviaLength, if_neg (by decide), if_neg (by decide),
      if_pos ⟨rfl, rfl⟩, triviaLength_comment hb' he]
    simp only [List.length_cons]
    omega
  rw [skipTrivia, hlen, ← skip_skip, skip_append]
  rfl

/-- Trivia in front of a text. -/
theorem Scans.trivia {gap : UnitText} (hg : Trivia vs gap) (h : Scans vs ws) :
    Scans (gap ++ vs) ws := by
  induction hg with
  | nil => exact h
  | blank hu _ ih => exact ih.blank (isTrivial_of_mem hu)
  | comment hb he _ ih =>
    intro pos
    rw [List.append_assoc, Cursor.pulls_congr (Cursor.skipTrivia_comment hb he pos)]
    exact ih _

/-! ## Lexemes -/

theorem Blanked.apart (h : Blanked vs) : Apart vs := by
  intro u hu
  rw [Bool.eq_false_iff]
  intro hp
  have ht := h u hu
  have hz : triviaLength false [u] = 0 := triviaLength_wordPart hp
  rw [triviaLength, ht, if_neg Bool.false_ne_true, if_pos rfl] at hz
  cases hz

theorem startsSymbol_of_triviaLength (hq : u ≠ unit '"') (hd : ¬ isDigit u = true)
    (hw : ¬ isWordStart u = true) (ht : triviaLength false (u :: us) = 0) : u.startsSymbol = true := by
  have hu : isTrivial u = false := by
    rw [Bool.eq_false_iff]
    intro hu
    rw [triviaLength, hu, if_neg Bool.false_ne_true, if_pos rfl] at ht
    cases ht
  simp only [CodeUnit.startsSymbol, Bool.and_eq_true, bne_iff_ne, Bool.not_eq_true']
  exact ⟨⟨⟨hq, Bool.eq_false_iff.mpr hd⟩, Bool.eq_false_iff.mpr hw⟩, hu⟩

/-- **A lexeme is read again** where it is cut out of its text and a blank follows, or nothing. -/
theorem Scans.lexeme {kind : TokenKind} {n : Nat} (hl : Lexeme.read u us = ⟨kind, n, none⟩)
    (ht : triviaLength false (u :: us) = 0) (hv : Blanked vs) (h : Scans vs ws) :
    Scans ((u :: us).take n ++ vs) (⟨kind, (u :: us).take n⟩ :: ws) := by
  have hread := hl
  unfold Lexeme.read at hl
  split at hl
  · next hq =>
    subst hq
    rw [Lexeme.readString] at hl
    rcases hb : stringBody false us with ⟨m, _ | _⟩
    · simp [hb] at hl
    · simp only [hb, if_true] at hl
      cases hl
      obtain ⟨init, hi, hbody⟩ := stringBody_take hb
      rw [List.take_succ_cons, hi]
      exact h.string (hbody.trans (by simp))
  next hq =>
  split at hl
  · next hd =>
    obtain rfl : kind = .number := by
      unfold Lexeme.readNumber at hl
      dsimp only at hl
      split at hl <;> exact (congrArg Lexeme.kind hl).symm
    obtain ⟨-, htake, hle⟩ := Lexeme.read_number hread
    rw [htake]
    exact h.digits (by simp [hd]) (List.all_eq_true.mp List.all_takeWhile) hle hv.apart
  split at hl
  · next hw =>
    cases hl
    have hp : isWordPart u = true := by rw [isWordPart, hw, Bool.true_or]
    rw [take_takeWhile, List.takeWhile_cons_of_pos hp]
    exact h.run hw (List.all_eq_true.mp List.all_takeWhile) hv.apart
  · next hd hw =>
    have hu := startsSymbol_of_triviaLength hq hd hw ht
    unfold Lexeme.readSymbol at hl
    split at hl
    · next kind' hk =>
      cases hl
      obtain ⟨v, hv', hk⟩ := Option.bind_eq_some_iff.mp hk
      obtain ⟨us, rfl⟩ := List.head?_eq_some_iff.mp hv'
      exact h.pair hu hk
    · split at hl
      · next kind' hk =>
        cases hl
        exact h.single hu hk hv
      · cases hl

/-! ## Tokens -/

theorem triviaLength_drop (us : UnitText) :
    triviaLength false (us.drop (triviaLength false us)) = 0 ∧
      triviaLength false (us.drop (triviaLength true us)) = 0 := by
  induction us with
  | nil => exact ⟨rfl, rfl⟩
  | cons u us ih =>
    constructor
    · rw [triviaLength, if_neg Bool.false_ne_true]
      split
      · exact ih.1
      split
      · exact ih.2
      · next hu hc => rw [List.drop_zero, triviaLength, if_neg Bool.false_ne_true, if_neg hu, if_neg hc]
    · rw [triviaLength, if_pos rfl]
      cases u != unit '\n'
      · exact ih.1
      · exact ih.2

/-- The word is scanned wherever its text stands in front of a blank. -/
def Rescans (w : Word) : Prop :=
  ∀ vs ws, Blanked vs → Scans vs ws → Scans (w.value ++ vs) (w :: ws)

/-- The tokens of a text are scanned again from their own texts. -/
theorem rescans_of_pulls {c : Cursor} {ts : List Token} {rest : List Pull}
    (h : c.pulls.1 = ts.map .ok ++ rest) : ∀ t ∈ ts, Rescans t.word := by
  induction ts generalizing c with
  | nil => simp
  | cons t ts ih =>
    obtain ⟨u, us, n, hr, hl, hv, hp⟩ := Cursor.exists_read_of_pulls (Prod.ext h rfl)
    have ht : triviaLength false (u :: us) = 0 := hr ▸ (triviaLength_drop c.rest).1
    rintro t' (_ | ⟨_, ht'⟩)
    · intro vs ws hvs h
      have := h.lexeme hl ht hvs
      rw [← hv] at this
      exact this
    · exact ih (congrArg Prod.fst hp) t' ht'

theorem scans_spaced {ws : List Word} (hws : ∀ w ∈ ws, Rescans w)
    (h : Spaced (ws.map Word.value) text) : Scans text ws := by
  induction ws generalizing text with
  | nil =>
    cases h with
    | last hg => exact List.append_nil text ▸ Scans.nil.trivia hg
  | cons w ws ih =>
    obtain ⟨hw, hws⟩ := List.forall_mem_cons.mp hws
    generalize hvalues : (w :: ws).map Word.value = values at h
    cases h with
    | last => cases hvalues
    | next hg _ _ h =>
      cases hvalues
      rw [List.append_assoc]
      exact (hw _ _ h.blanked (ih hws h)).trivia hg

/-- **Layouts.** Words that scan from their own texts scan from any layout of these. -/
theorem scans_layout {ws : List Word} (hws : ∀ w ∈ ws, Rescans w)
    (h : Layout (ws.map Word.value) text) : Scans text ws := by
  generalize hvalues : ws.map Word.value = values at h
  cases h with
  | nothing hg =>
    rw [List.map_eq_nil_iff.mp hvalues]
    exact List.append_nil text ▸ Scans.nil.trivia hg
  | values hg h =>
    obtain ⟨w, ws, rfl, rfl, rfl⟩ := List.map_eq_cons_iff.mp hvalues
    obtain ⟨hw, hws⟩ := List.forall_mem_cons.mp hws
    rw [List.append_assoc]
    exact (hw _ _ h.blanked (scans_spaced hws h)).trivia hg

end IntLang
