import IntLang.CUnit.Emission
import IntLang.Proofs.Text.Pieces

/-!
# The lines of `main`

The lines of a unit between the head of its function and the final return are those of the program.
Only the calls of `printf` keep them from being a program themselves.

* `mainLines` cuts these lines out of a unit, `unprint` turns the call of a line back;
* **`mainLines_text_frame`**: what is cut out are the lines that were put in, further in.
-/

namespace IntLang.CUnit

/-- The lines between the head of the function and the final return. -/
def mainLines (code : UnitText) : List UnitText :=
  let behind := ((Text.runs (unit '\n') code).dropWhile (· ≠ Text.units "int main() \x7b")).tail
  (behind.reverse.dropWhile (· ≠ Text.units "    return 0;")).tail.reverse

def numberCall : UnitText := Text.units "printf(\"%d\\n\", "

def textCall : UnitText := Text.units "printf(\"%s\\n\", "

/-- A line whose call, if it is one behind its blanks, is a print statement again. -/
def unprint : UnitText → UnitText
  | [] => []
  | u :: us =>
    if u = unit ' ' then u :: unprint us
    else if numberCall.isPrefixOf (u :: us) then "print(" ++ (u :: us).drop numberCall.length
    else if textCall.isPrefixOf (u :: us) then "print(" ++ (u :: us).drop textCall.length
    else u :: us

/-! ## Calls -/

theorem indent_eq (line : UnitText) :
    indent line = unit ' ' :: unit ' ' :: unit ' ' :: unit ' ' :: line := rfl

theorem unprint_indent (line : UnitText) : unprint (indent line) = indent (unprint line) := by
  simp only [indent_eq, unprint, if_true]

theorem unprint_of_ne {line : UnitText} (h : line.head? ≠ some (unit ' ')) :
    unprint line =
      if numberCall.isPrefixOf line then "print(" ++ line.drop numberCall.length
      else if textCall.isPrefixOf line then "print(" ++ line.drop textCall.length
      else line := by
  cases line with
  | nil => rfl
  | cons u us =>
    have hu : u ≠ unit ' ' := fun hu => h (congrArg some hu)
    rw [unprint, if_neg hu]

theorem unprint_numberCall (rest : UnitText) : unprint (numberCall ++ rest) = "print(" ++ rest := by
  have hh : (numberCall ++ rest).head? = some (unit 'p') := rfl
  have hp : numberCall.isPrefixOf (numberCall ++ rest) = true :=
    List.isPrefixOf_iff_prefix.mpr (List.prefix_append _ _)
  rw [unprint_of_ne (by rw [hh]; decide), if_pos hp, List.drop_left]

theorem unprint_textCall (rest : UnitText) : unprint (textCall ++ rest) = "print(" ++ rest := by
  have hh : (textCall ++ rest).head? = some (unit 'p') := rfl
  have hp : textCall.isPrefixOf (textCall ++ rest) = true :=
    List.isPrefixOf_iff_prefix.mpr (List.prefix_append _ _)
  have hn : numberCall.isPrefixOf (textCall ++ rest) = false := rfl
  rw [unprint_of_ne (by rw [hh]; decide), hn, if_neg Bool.false_ne_true, if_pos hp, List.drop_left]

/-- A call has a parenthesis, so a line without one is none. -/
theorem unprint_of_notMem {line : UnitText} (h : unit '(' ∉ line) (hs : unit ' ' ∉ line) :
    unprint line = line := by
  have hb : line.head? ≠ some (unit ' ') := fun hb => hs (List.mem_of_head? hb)
  have hne (call : UnitText) (hc : unit '(' ∈ call) : ¬ call.isPrefixOf line = true :=
    fun hp => h ((List.isPrefixOf_iff_prefix.mp hp).subset hc)
  rw [unprint_of_ne hb, if_neg (hne _ (by decide)), if_neg (hne _ (by decide))]

theorem unprint_of_head {line : UnitText} {u : CodeUnit} (h : line.head? = some u)
    (hb : u ≠ unit ' ') (hp : u ≠ unit 'p') : unprint line = line := by
  have hne (call : UnitText) (hc : call.head? = some (unit 'p')) : ¬ call.isPrefixOf line = true := by
    intro hi
    obtain ⟨rest, hr⟩ := List.isPrefixOf_iff_prefix.mp hi
    obtain ⟨us, hus⟩ := List.head?_eq_some_iff.mp hc
    rw [← hr, hus] at h
    exact hp (Option.some.inj h).symm
  rw [unprint_of_ne (by simpa [h] using hb), if_neg (hne _ rfl), if_neg (hne _ rfl)]

/-! ## Cutting out -/

theorem text_cons (line : UnitText) (lines : List UnitText) :
    text (line :: lines) = line ++ unit '\n' :: text lines := by
  simp [text]

theorem runs_text {lines : List UnitText} (h : ∀ line ∈ lines, unit '\n' ∉ line) :
    Text.runs (unit '\n') (text lines) = lines ++ [[]] := by
  induction lines with
  | nil => rfl
  | cons line lines ih =>
    obtain ⟨hl, hs⟩ := List.forall_mem_cons.mp h
    rw [text_cons, Text.runs_append hl, ih hs, List.cons_append]

/-- **The lines put in are the lines cut out.** -/
theorem mainLines_text_frame {lines : List UnitText} (h : ∀ line ∈ lines, unit '\n' ∉ line) :
    mainLines (text (frame lines)) = lines.map indent := by
  have hf : ∀ line ∈ frame lines, unit '\n' ∉ line := by
    have hi : ∀ line ∈ lines.map indent, unit '\n' ∉ line := by
      refine List.forall_mem_map.mpr fun line hl => ?_
      exact List.not_mem_append (by decide) (h line hl)
    refine List.forall_mem_append.mpr ⟨List.forall_mem_append.mpr ⟨by decide, hi⟩, by decide⟩
  have hd : (frame lines ++ [[]]).dropWhile (· ≠ Text.units "int main() \x7b") =
      Text.units "int main() \x7b" :: (lines.map indent ++ [indent "return 0;", "\x7d", []]) := by
    simp [frame]
  have hr : indent "return 0;" = Text.units "    return 0;" := rfl
  rw [mainLines, runs_text hf, hd]
  simp [hr]

end IntLang.CUnit
