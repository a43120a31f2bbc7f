import IntLang.Proofs.Scanning.Lexemes

/-!
# What scanned tokens hold

Every token is a piece of the text it was scanned from, and its kind says which pieces there are.

* `Word.Sound`: a name is an identifier, a number is in range, a string is one literal;
* `forall_of_pulls`: what holds of the pieces of a text that are read holds of its tokens;
* **`sound_of_pulls`**: the tokens of a text are sound.
-/

namespace IntLang

open CodeUnit

variable {us vs : UnitText} {u : CodeUnit}

/-! ## Lexemes -/

theorem take_takeWhile (p : CodeUnit → Bool) (us : UnitText) :
    us.take (us.takeWhile p).length = us.takeWhile p :=
  (List.prefix_iff_eq_take.mp (List.takeWhile_prefix p)).symm

theorem Lexeme.read_ident {n : Nat} (h : read u us = ⟨.ident, n, none⟩) :
    isWordStart u = true ∧ (u :: us).take n = (u :: us).takeWhile isWordPart ∧
      wordKind ((u :: us).takeWhile isWordPart) = .ident := by
  unfold read at h
  split at h
  · rw [readString] at h
    cases h
  split at h
  · unfold readNumber at h
    split at h <;> cases h
  split at h
  · next hw =>
    obtain ⟨hk, rfl, -⟩ := Lexeme.mk.inj h
    exact ⟨hw, take_takeWhile _ _, hk⟩
  · refine absurd ?_ (kind_readSymbol u us)
    simp [h]

theorem Lexeme.read_number {n : Nat} (h : read u us = ⟨.number, n, none⟩) :
    isDigit u = true ∧ (u :: us).take n = (u :: us).takeWhile isDigit ∧
      Text.numeral ((u :: us).takeWhile isDigit) ≤ maxNumber := by
  unfold read at h
  split at h
  · rw [readString] at h
    cases h
  split at h
  · next hd =>
    unfold readNumber at h
    split at h
    · cases h
    · obtain ⟨-, rfl, hf⟩ := Lexeme.mk.inj h
      refine ⟨hd, take_takeWhile _ _, Nat.not_lt.mp fun hn => ?_⟩
      rw [if_pos hn] at hf
      cases hf
  split at h
  · have := wordKind_mem ((u :: us).takeWhile isWordPart)
    rw [show wordKind _ = .number from congrArg Lexeme.kind h] at this
    exact absurd this (by decide)
  · refine absurd ?_ (kind_readSymbol u us)
    simp [h]

/-- A closed string ends with a quote, and it is closed without what follows. -/
theorem stringBody_take {escaped : Bool} {m : Nat} (h : stringBody escaped us = (m, true)) :
    ∃ init, us.take m = init ++ [unit '"'] ∧
      stringBody escaped (init ++ [unit '"']) = (init.length + 1, true) := by
  induction us generalizing escaped m with
  | nil => cases h
  | cons u us ih =>
    rw [stringBody] at h
    split at h
    · cases h
    · next hn =>
      split at h
      · next hq =>
        cases h
        obtain ⟨rfl, he⟩ := hq
        refine ⟨[], rfl, ?_⟩
        rw [List.nil_append, stringBody, if_neg hn, if_pos ⟨rfl, he⟩]
        rfl
      · next hq =>
        rcases hb : stringBody (!escaped && u == unit '\\') us with ⟨m, closed⟩
        rw [hb] at h
        cases h
        obtain ⟨init, ht, hi⟩ := ih hb
        refine ⟨u :: init, by rw [List.take_succ_cons, ht, List.cons_append], ?_⟩
        rw [List.cons_append, stringBody, if_neg hn, if_neg hq, hi]
        rfl

/-! ## Words -/

/-- What the scanner promises of a word. -/
structure Word.Sound (w : Word) : Prop where
  ident (h : w.kind = .ident) : IsIdentifier w.value
  number (h : w.kind = .number) : ∃ n ≤ maxNumber, Parse.numberNode w.value = .number n
  string (h : w.kind = .string) : IsLiteral w.value

theorem isIdentifier_of_word (hu : isWordStart u = true) (hus : ∀ v ∈ us, isWordPart v = true)
    (hk : wordKind (u :: us) = .ident) : IsIdentifier (u :: us) := by
  have keyword : ∀ word ∈ ["int", "print", "if", "else"].map Text.units, wordKind word ≠ .ident := by
    decide
  exact ⟨⟨u, us, rfl, hu, hus⟩, fun hm => keyword _ hm hk⟩

/-- What is read without a fault is sound. -/
theorem sound_of_read {w : Word} {n : Nat} (hl : Lexeme.read u us = ⟨w.kind, n, none⟩)
    (hv : w.value = (u :: us).take n) : w.Sound where
  ident hk := by
    rw [hk] at hl
    obtain ⟨hu, htake, hword⟩ := Lexeme.read_ident hl
    have hp : isWordPart u = true := by rw [isWordPart, hu, Bool.true_or]
    rw [htake] at hv
    rw [List.takeWhile_cons_of_pos hp] at hv hword
    rw [hv]
    exact isIdentifier_of_word hu (List.all_eq_true.mp List.all_takeWhile) hword
  number hk := by
    rw [hk] at hl
    obtain ⟨hu, htake, hle⟩ := Lexeme.read_number hl
    rw [htake] at hv
    refine ⟨_, hle, ?_⟩
    rw [hv]
    exact Parse.numberNode_digits (by simp [hu]) (List.all_eq_true.mp List.all_takeWhile)
  string hk := by
    rw [hk] at hl
    obtain ⟨rfl, m, rfl, hb⟩ := Lexeme.read_string hl
    obtain ⟨init, hi, hbody⟩ := stringBody_take hb
    rw [List.take_succ_cons, hi] at hv
    refine isLiteral_iff.mpr ⟨_, hv, ?_⟩
    rw [hbody, List.length_append]
    rfl

/-- What holds of every word that is read from a piece of a text holds of its tokens. -/
theorem forall_of_pulls {P : Word → Prop} {text : UnitText}
    (hP : ∀ {u us w n}, u :: us <:+ text → Lexeme.read u us = ⟨w.kind, n, none⟩ →
      w.value = (u :: us).take n → P w)
    {c : Cursor} {ts : List Token} {rest : List Pull} (hc : c.rest <:+ text)
    (h : c.pulls.1 = ts.map .ok ++ rest) : ∀ t ∈ ts, P t.word := by
  induction ts generalizing c with
  | nil => simp
  | cons t ts ih =>
    obtain ⟨u, us, n, hr, hl, hv, hp⟩ := Cursor.exists_read_of_pulls (Prod.ext h rfl)
    have hs : c.skipTrivia.rest <:+ text := (List.drop_suffix _ _).trans hc
    rintro t' (_ | ⟨_, ht'⟩)
    · exact hP (hr ▸ hs) hl hv
    · exact ih ((List.drop_suffix _ _).trans hs) (congrArg Prod.fst hp) t' ht'

/-- **The tokens of a text are sound.** -/
theorem sound_of_pulls {c : Cursor} {ts : List Token} {rest : List Pull}
    (h : c.pulls.1 = ts.map .ok ++ rest) : ∀ t ∈ ts, t.word.Sound :=
  forall_of_pulls (fun _ hl hv => sound_of_read hl hv) (List.suffix_refl _) h

end IntLang
