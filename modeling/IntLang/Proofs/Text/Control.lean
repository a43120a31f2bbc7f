import IntLang.Proofs.Text.Whole

/-!
# Control characters

Control characters stand in no wording and in no number, nor in the code that half a pair is spelled by. So
one that a text does not hold in units does not turn up where the text is shown.

* `Text.IsControl`: the control characters but for the first one, which stands for all that is no character;
* `Text.Lacks`: a text does not hold a character; `Text.Printable`: it holds no control character at all;
* `Text.notMem_units`, `Text.lacks_ofUnits`: what is not in a text is not in its units, nor the other way
  round.
-/

namespace IntLang.Text

open CodeUnit

/-- A control character, but for the one that `Char.ofNat` gives for what is no character. -/
def IsControl (x : Char) : Prop := 0 < x.toNat ∧ x.toNat < 32

instance (x : Char) : Decidable (IsControl x) := inferInstanceAs (Decidable (_ ∧ _))

/-- The character is not in the text. -/
def Lacks (x : Char) (s : String) : Prop := x ∉ s.toList

/-- All characters stand behind the control characters. -/
def Printable (s : String) : Prop := ∀ c ∈ s.toList, 32 ≤ c.toNat

-- Found by name: a search can go through all characters there are.
instance (s : String) : Decidable (Printable s) := List.decidableBAll _ s.toList

instance (x : Char) (s : String) : Decidable (Lacks x s) := inferInstanceAs (Decidable (_ ∉ _))

variable {x : Char} {s t : String}

theorem isControl_lineFeed : IsControl '\n' := by decide

theorem isControl_escape : IsControl '\x1b' := by decide

theorem lacks_ofList {cs : List Char} (h : x ∉ cs) : Lacks x (String.ofList cs) := by
  rwa [Lacks, String.toList_ofList]

theorem Lacks.append (hs : Lacks x s) (ht : Lacks x t) : Lacks x (s ++ t) := by
  rw [Lacks, String.toList_append]
  exact List.not_mem_append hs ht

theorem lacks_joined {sep : String} (hs : Lacks x sep) {pieces : List String}
    (h : ∀ piece ∈ pieces, Lacks x piece) : Lacks x (joined sep pieces) := by
  induction pieces using joined.induct with
  | case1 => exact List.not_mem_nil
  | case2 piece => exact h piece List.mem_cons_self
  | case3 piece pieces hne ih =>
    obtain ⟨hp, hm⟩ := List.forall_mem_cons.mp h
    rw [joined]
    · exact (hp.append hs).append (ih hm)
    · exact hne

theorem printable_nat (n : Nat) : Printable (toString n) := by
  intro c hm
  have hm : c ∈ n.repr.toList := hm
  rw [Nat.toList_repr] at hm
  exact Nat.le_trans (by decide) (toNat_of_mem_toDigits hm).1

/-- Numbers are digits, and a minus if they are below zero. -/
theorem printable_int (n : Int) : Printable (toString n) := by
  cases n with
  | ofNat n => exact printable_nat n
  | negSucc n =>
    have written : toString (Int.negSucc n) = "-" ++ toString (n + 1) := rfl
    intro c hm
    rw [written, String.toList_append] at hm
    rcases List.mem_append.mp hm with hm | hm
    · rw [List.mem_singleton.mp hm]
      decide
    · exact printable_nat (n + 1) c hm

namespace IsControl

theorem ne (hx : IsControl x) {c : Char} (hc : 32 ≤ c.toNat) : c ≠ x := by
  rintro rfl
  exact absurd hx.2 (Nat.not_lt.mpr hc)

theorem lacks (hx : IsControl x) (hs : Printable s) : Lacks x s :=
  fun hm => hx.ne (hs x hm) rfl

/-- A text between two wordings. -/
theorem quoted (hx : IsControl x) (hs : Lacks x s) {front back : String} (hf : Printable front)
    (hb : Printable back) : Lacks x (front ++ s ++ back) :=
  ((hx.lacks hf).append hs).append (hx.lacks hb)

/-- The unit of a control character is whole. -/
theorem unit_whole (hx : IsControl x) : (unit x).isHigh = false ∧ (unit x).isLow = false := by
  obtain ⟨-, hx⟩ := hx
  have value : (unit x).toNat = x.toNat := toNat_toUInt16 (by omega)
  simp only [isHigh, isLow, Bool.and_eq_false_iff, decide_eq_false_iff_not, UInt16.le_iff_toNat_le,
    UInt16.lt_iff_toNat_lt, value]
  simp only [UInt16.reduceToNat]
  omega

theorem ofNat_ne (hx : IsControl x) {n : Nat} (h : n ≠ x.toNat) : Char.ofNat n ≠ x := by
  rintro rfl
  by_cases hn : n.isValidChar
  · rw [Char.ofNat, dif_pos hn] at h
    exact h rfl
  · rw [Char.ofNat, dif_neg hn] at hx
    exact absurd hx (by decide)

theorem hexDigit_ne (hx : IsControl x) (n : Nat) : hexDigit n ≠ x := by
  have below := hx.2
  unfold hexDigit
  split
  all_goals exact hx.ofNat_ne (by omega)

end IsControl

/-! ## Texts and their units -/

theorem notMem_loneUnit (hx : IsControl x) {u : CodeUnit} (h : u ≠ unit x) : x ∉ loneUnit u := by
  unfold loneUnit
  split
  · have open_ne : '<' ≠ x := hx.ne (by decide)
    have close_ne : '>' ≠ x := hx.ne (by decide)
    simp [open_ne.symm, close_ne.symm, (hx.hexDigit_ne _).symm]
  · rw [List.mem_singleton, eq_comm]
    refine hx.ofNat_ne fun hn => h (UInt16.toNat_inj.mp ?_)
    rw [hn]
    exact (toNat_toUInt16 (by have := hx.2; omega)).symm

/-- **What is not in the units of a text is not in the text.** -/
theorem lacks_ofUnits (hx : IsControl x) {us : UnitText} (h : unit x ∉ us) : Lacks x (ofUnits us) := by
  refine lacks_ofList ?_
  induction us using charsOfUnits.induct with
  | case1 => exact List.not_mem_nil
  | case2 u => exact notMem_loneUnit hx fun he => h (List.mem_singleton.mpr he.symm)
  | case3 u v rest hp ih =>
    rw [charsOfUnits, if_pos hp, List.mem_cons, not_or]
    have below := hx.2
    refine ⟨(hx.ofNat_ne (by omega)).symm, ih fun hm => h ?_⟩
    exact List.mem_cons_of_mem _ (List.mem_cons_of_mem _ hm)
  | case4 u v rest hp ih =>
    rw [List.mem_cons, not_or] at h
    rw [charsOfUnits, if_neg hp]
    exact List.not_mem_append (notMem_loneUnit hx (Ne.symm h.1)) (ih h.2)

theorem notMem_units (hx : IsControl x) (h : Lacks x s) : unit x ∉ units s :=
  fun hm => h (mem_of_unit_mem_units (by have := hx.2; omega) hx.unit_whole hm)

theorem IsControl.wording (hx : IsControl x) (hs : Printable s) : unit x ∉ units s :=
  notMem_units hx (hx.lacks hs)

end IntLang.Text
