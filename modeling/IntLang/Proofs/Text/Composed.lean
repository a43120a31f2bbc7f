import IntLang.Proofs.Text.Control

/-!
# Texts that are put together

Drawings, units, paths and messages are put together from fixed wordings and from texts that are given. A
property that wordings have, and that texts keep when they are joined, passes from those texts to the whole.

* `Text.Composes`: such properties; `LinesHave`: all lines have one;
* `IsControl.composes`, `composes_whole`: not to hold a control character, and to be whole.
-/

namespace IntLang

/-- All lines have the property. -/
def LinesHave (P : UnitText → Prop) (lines : List UnitText) : Prop := ∀ line ∈ lines, P line

namespace Text

/-- Wordings have the property, and texts that have it keep it when they are joined. -/
structure Composes (P : UnitText → Prop) : Prop where
  wording {s : String} (h : Printable s) : P (units s)
  append {us vs : UnitText} (hu : P us) (hv : P vs) : P (us ++ vs)

namespace Composes

variable {P : UnitText → Prop} {us : UnitText} {lines : List UnitText}

theorem nil (hP : Composes P) : P [] := hP.wording (s := "") (List.forall_mem_nil _)

theorem number (hP : Composes P) (n : Int) : P (units (toString n)) := hP.wording (printable_int n)

/-- A text between two wordings. -/
theorem quoted (hP : Composes P) (h : P us) {front back : String} (hf : Printable front)
    (hb : Printable back) : P (units front ++ us ++ units back) :=
  hP.append (hP.append (hP.wording hf) h) (hP.wording hb)

theorem intercalate (hP : Composes P) {sep : UnitText} (hs : P sep) (h : LinesHave P lines) :
    P (sep.intercalate lines) := by
  induction lines with
  | nil => exact hP.nil
  | cons line lines ih =>
    obtain ⟨hl, hm⟩ := List.forall_mem_cons.mp h
    cases lines with
    | nil =>
      rw [List.intercalate_singleton]
      exact hl
    | cons next more =>
      rw [List.intercalate_cons_cons]
      exact hP.append (hP.append hl hs) (ih hm)

end Composes

theorem IsControl.composes {x : Char} (hx : IsControl x) : Composes (unit x ∉ ·) where
  wording h := hx.wording h
  append hu hv := List.not_mem_append hu hv

theorem composes_whole : Composes Whole where
  wording _ := ⟨_, rfl⟩
  append hu hv := hu.append hv

end Text

end IntLang
