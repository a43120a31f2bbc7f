import IntLang.Drawing
import IntLang.Proofs.Text.Composed
import IntLang.Proofs.Text.Pieces
import Mathlib.Data.List.TakeWhile

/-!
# Sketches

A drawing shows the labels of a tree and how deep they lie. That is enough to find the tree again: the
parts of a node are what lies deeper than it, up to the next line that does not.

* `Sketch.draw` draws a tree of labels, `Sketch.ofText?` reads it;
* `Row.ofLine` takes a line apart: four columns for each step down, then the label;
* `Sketch.grow` puts one more row in front of the trees behind it;
* **`ofText?_draw`**: labels that do not look like columns are found again, where they belong.
-/

namespace IntLang

theorem hangAll_cons (drawing : List UnitText) (drawings : List (List UnitText)) :
    hangAll (drawing :: drawings) = hang drawings.isEmpty drawing ++ hangAll drawings := by
  cases drawings with
  | nil => exact (List.append_nil _).symm
  | cons => rfl

section

open Text (Composes)

variable {P : UnitText → Prop}

theorem linesHave_hang (hP : Composes P) {lines : List UnitText} (h : LinesHave P lines)
    (isLast : Bool) : LinesHave P (hang isLast lines) := by
  have branch : P (Text.units (if isLast then "+-- " else "|-- ")) := by
    cases isLast <;> exact hP.wording (by decide +kernel)
  have trunk : P (Text.units (if isLast then "    " else "|   ")) := by
    cases isLast <;> exact hP.wording (by decide +kernel)
  cases lines with
  | nil => exact h
  | cons line lines =>
    obtain ⟨hl, hs⟩ := List.forall_mem_cons.mp h
    exact List.forall_mem_cons.mpr ⟨hP.append branch hl,
      List.forall_mem_map.mpr fun line hm => hP.append trunk (hs line hm)⟩

theorem linesHave_hangAll (hP : Composes P) {drawings : List (List UnitText)}
    (h : ∀ d ∈ drawings, LinesHave P d) : LinesHave P (hangAll drawings) := by
  induction drawings with
  | nil => exact List.forall_mem_nil _
  | cons d drawings ih =>
    obtain ⟨hd, hs⟩ := List.forall_mem_cons.mp h
    rw [hangAll_cons]
    exact List.forall_mem_append.mpr ⟨linesHave_hang hP hd _, ih hs⟩

/-- A line with drawings below it. -/
theorem linesHave_cons (hP : Composes P) {label : UnitText} {drawings : List (List UnitText)}
    (hl : P label) (h : ∀ d ∈ drawings, LinesHave P d) : LinesHave P (label :: hangAll drawings) :=
  List.forall_mem_cons.mpr ⟨hl, linesHave_hangAll hP h⟩

end

/-- A tree of labels. -/
inductive Sketch where
  | mk (label : UnitText) (parts : List Sketch)

namespace Sketch

/-! ## Drawing -/

mutual

def lines : Sketch → List UnitText
  | mk label parts => label :: hangAll (linesAll parts)

def linesAll : List Sketch → List (List UnitText)
  | [] => []
  | s :: ss => s.lines :: linesAll ss

end

/-- What opens the four columns of a step down. -/
def isColumn (u : CodeUnit) : Bool := u == unit ' ' || u == unit '|' || u == unit '+'

/-- A label on one line, which does not open like a column. -/
structure PlainLabel (label : UnitText) : Prop where
  opens : ∃ u ∈ label.head?, isColumn u = false
  oneLine : unit '\n' ∉ label

inductive Plain : Sketch → Prop
  | mk {label : UnitText} {parts : List Sketch} (hl : PlainLabel label) (hp : ∀ s ∈ parts, s.Plain) :
    Plain (.mk label parts)

end Sketch

/-! ## Rows -/

/-- A label and how deep it lies. -/
structure Row where
  depth : Nat
  label : UnitText
  deriving DecidableEq, Repr

namespace Row

def deeper (r : Row) : Row := { r with depth := r.depth + 1 }

def ofLine : UnitText → Row
  | a :: b :: c :: d :: us => if Sketch.isColumn a then (ofLine us).deeper else ⟨0, a :: b :: c :: d :: us⟩
  | us => ⟨0, us⟩

end Row

namespace Sketch

mutual

/-- The labels of a tree with their depths, each in front of its parts. -/
def rows (depth : Nat) : Sketch → List Row
  | mk label parts => ⟨depth, label⟩ :: rowsAll (depth + 1) parts

def rowsAll (depth : Nat) : List Sketch → List Row
  | [] => []
  | s :: ss => s.rows depth ++ rowsAll depth ss

end

/-! ## Growing -/

/-- One more row in front of some trees, each with its depth: the first trees are its parts, as far as
they lie deeper. -/
def grow (r : Row) (behind : List (Nat × Sketch)) : List (Nat × Sketch) :=
  (r.depth, mk r.label ((behind.takeWhile (r.depth < ·.1)).map (·.2))) ::
    behind.dropWhile (r.depth < ·.1)

/-- The trees do not go on with one that lies deeper. -/
def AtMost (depth : Nat) (behind : List (Nat × Sketch)) : Prop := ∀ e ∈ behind.head?, e.1 ≤ depth

theorem grow_of_parts {depth : Nat} {behind : List (Nat × Sketch)} (h : AtMost depth behind)
    (label : UnitText) (parts : List Sketch) :
    grow ⟨depth, label⟩ (parts.map (depth + 1, ·) ++ behind) = (depth, mk label parts) :: behind := by
  have deeper : ∀ e ∈ parts.map (depth + 1, ·), decide (depth < e.1) = true := by simp
  have stop : behind.takeWhile (depth < ·.1) = [] ∧ behind.dropWhile (depth < ·.1) = behind := by
    cases behind with
    | nil => exact ⟨rfl, rfl⟩
    | cons e behind =>
      have he : ¬ depth < e.1 := Nat.not_lt.mpr (h e rfl)
      simp [he]
  have labels : (parts.map (depth + 1, ·)).map (·.2) = parts := by simp [Function.comp_def]
  unfold grow
  rw [List.takeWhile_append_of_pos deeper, List.dropWhile_append_of_pos deeper, stop.1, stop.2,
    List.append_nil, labels]

mutual

/-- **Rows grow to their tree.** -/
theorem foldr_grow_rows : ∀ (s : Sketch) (depth : Nat) {behind : List (Nat × Sketch)},
    AtMost depth behind → (s.rows depth).foldr grow behind = (depth, s) :: behind
  | mk label parts, depth, behind, h => by
    have below : AtMost (depth + 1) behind := fun e he => Nat.le_succ_of_le (h e he)
    rw [rows, List.foldr_cons, foldr_grow_rowsAll parts (depth + 1) below, grow_of_parts h]

theorem foldr_grow_rowsAll : ∀ (ss : List Sketch) (depth : Nat) {behind : List (Nat × Sketch)},
    AtMost depth behind → (rowsAll depth ss).foldr grow behind = ss.map (depth, ·) ++ behind
  | [], _, _, _ => rfl
  | s :: ss, depth, behind, h => by
    have atMost : AtMost depth (ss.map (depth, ·) ++ behind) := by
      cases ss with
      | nil => exact h
      | cons => simp [AtMost]
    rw [rowsAll, List.foldr_append, foldr_grow_rowsAll ss depth h, foldr_grow_rows s depth atMost]
    rfl

end

end Sketch

/-! ## Lines -/

namespace Row

theorem ofLine_branch (isLast : Bool) (line : UnitText) :
    ofLine (Text.units (if isLast then "+-- " else "|-- ") ++ line) = (ofLine line).deeper := by
  cases isLast <;> rfl

theorem ofLine_trunk (isLast : Bool) (line : UnitText) :
    ofLine (Text.units (if isLast then "    " else "|   ") ++ line) = (ofLine line).deeper := by
  cases isLast <;> rfl

theorem ofLine_label {label : UnitText} (h : Sketch.PlainLabel label) : ofLine label = ⟨0, label⟩ := by
  obtain ⟨u, hu, hcol⟩ := h.opens
  obtain ⟨us, rfl⟩ := List.head?_eq_some_iff.mp hu
  rcases us with _ | ⟨v, _ | ⟨w, _ | ⟨w', us⟩⟩⟩ <;> simp [ofLine, hcol]

theorem map_ofLine_hang (isLast : Bool) (lines : List UnitText) :
    (hang isLast lines).map ofLine = (lines.map ofLine).map deeper := by
  cases lines with
  | nil => rfl
  | cons line lines => simp [hang, ofLine_branch, ofLine_trunk]

end Row

namespace Sketch

mutual

theorem rows_succ : ∀ (s : Sketch) (depth : Nat), s.rows (depth + 1) = (s.rows depth).map Row.deeper
  | mk label parts, depth => by
    rw [rows, rows, rowsAll_succ parts (depth + 1)]
    rfl

theorem rowsAll_succ : ∀ (ss : List Sketch) (depth : Nat),
    rowsAll (depth + 1) ss = (rowsAll depth ss).map Row.deeper
  | [], _ => rfl
  | s :: ss, depth => by
    rw [rowsAll, rowsAll, rows_succ s depth, rowsAll_succ ss depth, List.map_append]

end

mutual

/-- **Each line shows its label and how deep it lies.** -/
theorem map_ofLine_lines : ∀ s : Sketch, s.Plain → s.lines.map Row.ofLine = s.rows 0
  | mk label parts, .mk hl hp => by
    rw [lines, rows, List.map_cons, Row.ofLine_label hl, map_ofLine_hangAll parts hp]

theorem map_ofLine_hangAll : ∀ ss : List Sketch, (∀ s ∈ ss, s.Plain) →
    (hangAll (linesAll ss)).map Row.ofLine = rowsAll 1 ss
  | [], _ => rfl
  | s :: ss, h => by
    have first := map_ofLine_lines s (h s List.mem_cons_self)
    have more := map_ofLine_hangAll ss fun t ht => h t (List.mem_cons_of_mem _ ht)
    rw [linesAll, hangAll_cons, List.map_append, Row.map_ofLine_hang, first, ← rows_succ s 0, more,
      rowsAll]

end

mutual

/-- No line holds a line feed. -/
theorem oneLine_lines : ∀ s : Sketch, s.Plain → LinesHave (unit '\n' ∉ ·) s.lines
  | mk label parts, .mk hl hp => by
    rw [lines]
    exact linesHave_cons Text.isControl_lineFeed.composes hl.oneLine (oneLine_linesAll parts hp)

theorem oneLine_linesAll : ∀ ss : List Sketch, (∀ s ∈ ss, s.Plain) →
    ∀ drawing ∈ linesAll ss, LinesHave (unit '\n' ∉ ·) drawing
  | [], _ => List.forall_mem_nil _
  | s :: ss, h => by
    obtain ⟨hs, hss⟩ := List.forall_mem_cons.mp h
    exact List.forall_mem_cons.mpr ⟨oneLine_lines s hs, oneLine_linesAll ss hss⟩

end

/-- The drawing of a tree, as one text. -/
def draw (s : Sketch) : UnitText := [unit '\n'].intercalate s.lines

/-- The tree that a text shows, if it is one. -/
def ofText? (text : UnitText) : Option Sketch :=
  match ((Text.runs (unit '\n') text).map Row.ofLine).foldr grow [] with
  | [(_, s)] => some s
  | _ => none

/-- The lines of a drawing show the rows of its tree. -/
theorem map_ofLine_draw {s : Sketch} (h : s.Plain) :
    (Text.runs (unit '\n') s.draw).map Row.ofLine = s.rows 0 := by
  have hne : s.lines ≠ [] := by
    cases s
    exact List.cons_ne_nil _ _
  have hp : Text.runs (unit '\n') s.draw = s.lines := Text.runs_intercalate hne (oneLine_lines s h)
  rw [hp, map_ofLine_lines s h]

/-- **A tree is found again in its drawing.** -/
theorem ofText?_draw {s : Sketch} (h : s.Plain) : ofText? s.draw = some s := by
  unfold ofText?
  rw [map_ofLine_draw h, foldr_grow_rows s 0 (by simp [AtMost])]

end Sketch

end IntLang
