import IntLang.CUnit.Name
import IntLang.Proofs.Scanning.Lexemes

/-!
# Names in C are names

* `cName_injective`: two names never meet in C;
* `isIdentifier_cName`: a name in C is no keyword of the program's language either;
* **`cName_one_to_one`**: and it is none that C owns.
-/

namespace IntLang.CUnit

/-- The name is one that the mark is put in front of. -/
abbrev Marked (name : UnitText) : Prop :=
  ((reserved.map Text.units).contains name || marked name) = true

theorem cName_of_marked {name : UnitText} (h : Marked name) : cName name = "v_" ++ name := if_pos h

theorem cName_of_free {name : UnitText} (h : ¬ Marked name) : cName name = name := if_neg h

theorem mark_append (name : UnitText) : "v_" ++ name = unit 'v' :: unit '_' :: name := rfl

theorem marked_mark (name : UnitText) : marked ("v_" ++ name) = true := rfl

theorem marked_of_mark (name : UnitText) : Marked ("v_" ++ name) := by
  rw [Marked, marked_mark, Bool.or_true]

theorem cName_injective : Function.Injective cName := by
  intro a b h
  by_cases ha : Marked a <;> by_cases hb : Marked b
  · rw [cName_of_marked ha, cName_of_marked hb] at h
    exact List.append_cancel_left h
  · rw [cName_of_marked ha, cName_of_free hb] at h
    exact absurd (h ▸ marked_of_mark a) hb
  · rw [cName_of_free ha, cName_of_marked hb] at h
    exact absurd (h ▸ marked_of_mark b) ha
  · rwa [cName_of_free ha, cName_of_free hb] at h

theorem isIdentifier_cName {name : UnitText} (h : IsIdentifier name) : IsIdentifier (cName name) := by
  by_cases hr : Marked name
  · obtain ⟨⟨u, us, rfl, hu, hus⟩, -⟩ := h
    have hp : u.isWordPart = true := by rw [CodeUnit.isWordPart, hu, Bool.true_or]
    rw [cName_of_marked hr]
    refine ⟨⟨unit 'v', unit '_' :: u :: us, rfl, rfl, ?_⟩, ?_⟩
    · exact List.forall_mem_cons.mpr ⟨rfl, List.forall_mem_cons.mpr ⟨hp, hus⟩⟩
    · -- no keyword starts with the mark
      have hne : ∀ word ∈ ["int", "print", "if", "else"].map Text.units, marked word = false := by decide
      intro hm
      have := hne _ hm
      rw [marked_mark] at this
      cases this
  · rwa [cName_of_free hr]

/-! ## Names that C owns -/

/-- The words of C and of the headers, and the names that start with an underscore and a capital letter
or a second underscore. -/
def Owned (name : UnitText) : Prop :=
  name ∈ reserved.map Text.units ∨
    ∃ u rest, name = unit '_' :: u :: rest ∧ (u = unit '_' ∨ unit 'A' ≤ u ∧ u ≤ unit 'Z')

/-- No name with the mark in front is one of them. -/
theorem not_owned_mark (name : UnitText) : ¬ Owned ("v_" ++ name) := by
  rintro (hr | ⟨u, rest, hs, -⟩)
  · have unmarked : ∀ word ∈ reserved.map Text.units, ¬ Text.units "v_" <+: word := by decide +kernel
    exact unmarked _ hr (List.prefix_append _ _)
  · rw [mark_append] at hs
    exact absurd (List.cons.inj hs).1 (by decide)

theorem marked_iff (name : UnitText) : marked name = true ↔ Text.units "v_" <+: name ∨
    ∃ u rest, name = unit '_' :: u :: rest ∧ (u = unit '_' ∨ unit 'A' ≤ u ∧ u ≤ unit 'Z') := by
  have mark : Text.units "v_" = [unit 'v', unit '_'] := rfl
  rw [mark]
  unfold marked
  split
  · next u v rest =>
    rw [List.cons_prefix_cons, List.cons_prefix_cons, eq_comm (a := unit 'v'), eq_comm (a := unit '_')]
    simp [and_assoc]
  · next short =>
    simp only [Bool.false_eq_true, false_iff, not_or]
    constructor
    · rintro ⟨rest, rfl⟩
      exact short _ _ _ rfl
    · rintro ⟨u, rest, rfl, -⟩
      exact short _ _ _ rfl

theorem cName_eq_self_iff {name : UnitText} :
    cName name = name ↔ ¬ Owned name ∧ ¬ Text.units "v_" <+: name := by
  have hm : Marked name ↔ Owned name ∨ Text.units "v_" <+: name := by
    rw [Marked, Bool.or_eq_true, List.contains_iff_mem, marked_iff, Owned, or_assoc,
      or_comm (b := _ <+: _)]
  rw [← not_or, ← hm]
  constructor
  · intro h hr
    rw [cName_of_marked hr, mark_append] at h
    have hl := congrArg List.length h
    simp only [List.length_cons] at hl
    omega
  · exact cName_of_free

/-- **Names in C are told apart and free.** No two names of a program have the same name in C, none has
one that C owns, and what is a name of the program's language stays one. A name is changed only if C owns
it or it has the mark in front. -/
theorem cName_one_to_one :
    (∀ a b : UnitText, a ≠ b → cName a ≠ cName b) ∧ ∀ name : UnitText,
      ¬ Owned (cName name) ∧ (IsIdentifier name → IsIdentifier (cName name)) ∧
        (cName name = name ↔ ¬ Owned name ∧ ¬ Text.units "v_" <+: name) := by
  refine ⟨fun _ _ => cName_injective.ne, fun name => ⟨?_, isIdentifier_cName, cName_eq_self_iff⟩⟩
  by_cases hr : Marked name
  · rw [cName_of_marked hr]
    exact not_owned_mark name
  · have hfree := cName_of_free hr
    rw [hfree]
    exact (cName_eq_self_iff.mp hfree).1

end IntLang.CUnit
