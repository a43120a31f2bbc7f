import IntLang.Proofs.Scanning.Lexemes

/-!
# Whole texts

The units of a string hold no half of a surrogate pair without the other, so they can be shown as they
are. A piece of them that is cut out between units that stand for characters themselves is whole again.

* `Text.Whole`: the units of some string;
* `Text.whole_of_lt`: units in front of the surrogates are whole;
* **`Text.whole_of_append`**: a whole text may be cut at a unit that is no half of a pair.
-/

namespace IntLang.Text

open CodeUnit

variable {us vs : UnitText} {u : CodeUnit}

def Whole (us : UnitText) : Prop := ∃ s : String, units s = us

theorem Whole.units_ofUnits (h : Whole us) : units (ofUnits us) = us := by
  obtain ⟨s, rfl⟩ := h
  rw [ofUnits_units]

theorem Whole.append (hu : Whole us) (hv : Whole vs) : Whole (us ++ vs) := by
  obtain ⟨s, rfl⟩ := hu
  obtain ⟨t, rfl⟩ := hv
  exact ⟨s ++ t, units_append s t⟩

theorem whole_flatMap (cs : List Char) : Whole (cs.flatMap charUnits) :=
  ⟨String.ofList cs, by rw [units, String.toList_ofList]⟩

theorem toNat_ofNat {n : Nat} (h : n < 0xD800) : (Char.ofNat n).toNat = n := by
  rw [Char.ofNat, dif_pos (.inl h)]
  rfl

/-- Units in front of the surrogates stand for characters. -/
theorem whole_of_lt (h : ∀ u ∈ us, u.toNat < 0xD800) : Whole us := by
  have hn (c : Char) (hc : c ∈ us.map fun u => Char.ofNat u.toNat) : c.toNat < 0x10000 := by
    obtain ⟨u, hu, rfl⟩ := List.mem_map.mp hc
    rw [toNat_ofNat (h u hu)]
    exact u.toNat_lt
  refine ⟨String.ofList (us.map fun u => Char.ofNat u.toNat), ?_⟩
  rw [units_ofList hn, List.map_map]
  refine (List.map_congr_left fun u hu => ?_).trans (List.map_id us)
  rw [Function.comp, unit, toNat_ofNat (h u hu)]
  exact UInt16.ofNat_toNat

/-- Among the units of a character, one that is no half of a pair is alone. -/
theorem charUnits_of_mem {c : Char} (hu : u.isHigh = false ∧ u.isLow = false)
    (hm : u ∈ charUnits c) : charUnits c = [u] := by
  have hc : c.toNat < 0x110000 := by
    have : c.toNat < 0xD800 ∨ 0xDFFF < c.toNat ∧ c.toNat < 0x110000 := c.valid
    omega
  unfold charUnits at hm ⊢
  split at hm
  · next h =>
    rw [if_pos h, List.mem_singleton.mp hm]
  · next h =>
    exfalso
    obtain ⟨hh, hl⟩ := hu
    simp only [isHigh, isLow, Bool.and_eq_false_iff, decide_eq_false_iff_not,
      UInt16.le_iff_toNat_le, UInt16.lt_iff_toNat_lt, UInt16.reduceToNat] at hh hl
    rcases List.mem_cons.mp hm with rfl | hm
    · rw [toNat_toUInt16 (by omega)] at hh
      omega
    · rw [List.mem_singleton.mp hm, toNat_toUInt16 (by omega)] at hl
      omega

/-- A character that is one unit of a text, and no half of a pair, is in it. -/
theorem mem_of_unit_mem_units {s : String} {c : Char} (hc : c.toNat < 0x10000)
    (hu : (unit c).isHigh = false ∧ (unit c).isLow = false) (h : unit c ∈ units s) : c ∈ s.toList := by
  obtain ⟨d, hd, hm⟩ := List.mem_flatMap.mp h
  have same : charUnits d = charUnits c := by rw [charUnits_of_mem hu hm, charUnits, if_pos hc]
  have read := charsOfUnits_charUnits d []
  rw [same, charsOfUnits_charUnits] at read
  exact (List.cons.inj read).1 ▸ hd

/-- A whole text may be cut at a unit that is no half of a pair. -/
theorem whole_of_append (hu : u.isHigh = false ∧ u.isLow = false) (h : Whole (us ++ u :: vs)) :
    Whole us ∧ Whole vs := by
  obtain ⟨s, h⟩ := h
  rw [units] at h
  generalize s.toList = cs at h
  induction cs generalizing us with
  | nil => simp at h
  | cons c cs ih =>
    have hc : Whole (charUnits c) := by simpa using whole_flatMap [c]
    rw [List.flatMap_cons] at h
    rcases List.append_eq_append_iff.mp h with ⟨ws, rfl, hr⟩ | ⟨ws, hus, hr⟩
    · obtain ⟨hw, hv⟩ := ih hr
      exact ⟨hc.append hw, hv⟩
    · cases ws with
      | nil =>
        rw [List.append_nil] at hus
        exact ⟨hus ▸ hc, (@ih [] hr.symm).2⟩
      | cons v ws =>
        obtain ⟨rfl, rfl⟩ := List.cons.inj hr
        have hm : u ∈ charUnits c := by simp [hus]
        rw [charUnits_of_mem hu hm] at hus
        obtain ⟨rfl, rfl⟩ : us = [] ∧ ws = [] := by
          cases us with
          | nil => simpa using hus
          | cons => simp at hus
        exact ⟨⟨"", rfl⟩, whole_flatMap cs⟩

end IntLang.Text
