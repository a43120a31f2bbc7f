/-!
# Pieces of a text

* `Text.runs` cuts a list at every occurrence of an element;
* `Text.pieces` cuts a text at every occurrence of a character, and `Text.joined` puts pieces back
  together: `joined_pieces` says that nothing is lost.
-/

namespace IntLang.Text

section Runs

variable {α : Type} [DecidableEq α]

/-- The runs between the occurrences of `sep`, empty ones included. -/
def runs (sep : α) : List α → List (List α)
  | [] => [[]]
  | c :: cs =>
    if c = sep then [] :: runs sep cs
    else match runs sep cs with
      | [] => [[c]]
      | run :: more => (c :: run) :: more

theorem runs_ne_nil (sep : α) (cs : List α) : runs sep cs ≠ [] := by
  cases cs with
  | nil => simp [runs]
  | cons c cs =>
    simp only [runs]
    split
    · simp
    · split <;> simp

end Runs

def pieces (sep : Char) (s : String) : List String := (runs sep s.toList).map String.ofList

/-- Pieces with `sep` between neighbours. -/
def joined (sep : String) : List String → String
  | [] => ""
  | [piece] => piece
  | piece :: more => piece ++ sep ++ joined sep more

theorem toList_joined_runs (sep : Char) (cs : List Char) :
    (joined (String.singleton sep) ((runs sep cs).map String.ofList)).toList = cs := by
  induction cs with
  | nil => rfl
  | cons c cs ih =>
    simp only [runs]
    obtain ⟨run, more, h⟩ := List.exists_cons_of_ne_nil (runs_ne_nil sep cs)
    rw [h] at ih ⊢
    split
    · next hc => cases more <;> simp_all [joined]
    · cases more <;> simp_all [joined]

theorem joined_pieces (sep : Char) (s : String) : joined (String.singleton sep) (pieces sep s) = s :=
  String.toList_injective (toList_joined_runs sep s.toList)

end IntLang.Text
