import IntLang.Proofs.Drawing.Sketch
import IntLang.Proofs.Scanning.Lexemes

/-!
# The labels of nodes

The label of a node is its kind, with its name, number or text between two fixed ends. No front end
begins another, so a label tells the kind.

* `Shape`: the kinds of labels, with the node that one stands for with given parts;
* `Node.sketch`: the tree of labels that the drawing of a node shows;
* `Node.Legible`: nodes whose labels stay on one line;
* **`ofSketch?_sketch`**: a legible node is found again in its labels.
-/

namespace IntLang

/-! ## Shapes -/

inductive Shape where
  | number | var | assign | operation | declare | print | printText | branch | block
  /-- The other block of a branch. -/
  | otherwise
  deriving DecidableEq, Repr

namespace Shape

def all : List Shape :=
  [number, var, assign, operation, declare, print, printText, branch, block, otherwise]

theorem mem_all (s : Shape) : s ∈ all := by cases s <;> decide

def front : Shape → UnitText
  | number => "NUM ("
  | var => "ID ("
  | assign => "ASSIGN (=) "
  | operation => "OP ("
  | declare => "DECL ("
  | print => "PRINT (Expr)"
  | printText => "PRINT (String): "
  | branch => "IF"
  | block => "BLOCK"
  | otherwise => "ELSE"

def back : Shape → UnitText
  | number | var | operation | declare => ")"
  | _ => ""

def label (s : Shape) (inner : UnitText) : UnitText := s.front ++ inner ++ s.back

/-- The node with a label and given parts. -/
def node? : Shape → UnitText → List Node → Option Node
  | number, value, [] => some (Parse.numberNode value)
  | var, name, [] => some (.var name)
  | assign, name, [value] => some (.assign name value)
  | operation, op, [operand] => if op = Text.units "neg" then some (.negate operand) else none
  | operation, op, [left, right] => (BinaryOp.ofText? (Text.ofUnits op)).map (.binary · left right)
  | declare, name, [] => some (.declare name none)
  | declare, name, [initial] => some (.declare name (some initial))
  | print, _, [value] => some (.print value)
  | printText, text, [] => some (.printText text)
  | branch, _, [condition, .block yes] => some (.branch condition yes none)
  | branch, _, [condition, .block yes, .block no] => some (.branch condition yes (some no))
  | block, _, statements => some (.block statements)
  | otherwise, _, statements => some (.block statements)
  | _, _, _ => none

/-! ## Reading labels -/

/-- What stands between the two ends of a label. -/
def inner? (s : Shape) (label : UnitText) : Option UnitText :=
  let rest := label.drop s.front.length
  if s.front.isPrefixOf label ∧ s.back.isSuffixOf rest then
    some (rest.take (rest.length - s.back.length))
  else none

theorem inner?_label (s : Shape) (inner : UnitText) : s.inner? (s.label inner) = some inner := by
  unfold inner? label
  rw [List.append_assoc]
  simp

/-- Neither front end begins the other. -/
def Apart (s t : Shape) : Prop := ¬ s.front <+: t.front ∧ ¬ t.front <+: s.front

theorem apart_all : all.Pairwise Apart := by
  unfold Apart
  decide +kernel

theorem inner?_of_apart {s t : Shape} (h : s.Apart t) (inner : UnitText) :
    s.inner? (t.label inner) = none := by
  refine if_neg fun hs => ?_
  have ht : t.front <+: t.label inner := by
    rw [label, List.append_assoc]
    exact List.prefix_append _ _
  obtain hp | hp := List.prefix_or_prefix_of_prefix (List.isPrefixOf_iff_prefix.mp hs.1) ht
  · exact h.1 hp
  · exact h.2 hp

/-- Front ends neither open like a column nor hold a line feed, nor do the others. -/
theorem plainLabel (s : Shape) {inner : UnitText} (h : unit '\n' ∉ inner) :
    Sketch.PlainLabel (s.label inner) := by
  have ends : (∃ u ∈ s.front.head?, Sketch.isColumn u = false) ∧
      unit '\n' ∉ s.front ∧ unit '\n' ∉ s.back := by
    cases s <;> exact ⟨⟨_, rfl, by decide⟩, by decide, by decide⟩
  obtain ⟨⟨u, hu, hcol⟩, hf, hb⟩ := ends
  refine ⟨⟨u, ?_, hcol⟩, List.not_mem_append (List.not_mem_append hf h) hb⟩
  rw [Option.mem_def] at hu ⊢
  rw [label, List.append_assoc, List.head?_append, hu]
  rfl

end Shape

namespace Node

/-- The node with a label and given parts. -/
def ofLabel? (label : UnitText) (parts : List Node) : Option Node :=
  Shape.all.findSome? fun s => (s.inner? label).bind (s.node? · parts)

/-- **A label tells its shape.** -/
theorem ofLabel?_label {s : Shape} {inner : UnitText} {parts : List Node} {node : Node}
    (h : s.node? inner parts = some node) : ofLabel? (s.label inner) parts = some node := by
  have hs := s.mem_all
  have apart := Shape.apart_all
  unfold ofLabel?
  generalize Shape.all = shapes at hs apart ⊢
  induction shapes with
  | nil => cases hs
  | cons t shapes ih =>
    obtain ⟨ht, apart⟩ := List.pairwise_cons.mp apart
    obtain rfl | hs := List.mem_cons.mp hs
    · rw [List.findSome?_cons, Shape.inner?_label, Option.bind_some, h]
    · rw [List.findSome?_cons, Shape.inner?_of_apart (ht s hs), Option.bind_none]
      exact ih hs apart

/-! ## Sketches -/

mutual

def sketch : Node → Sketch
  | number value => .mk (Shape.number.label (toString value)) []
  | var name => .mk (Shape.var.label name) []
  | assign name value => .mk (Shape.assign.label name) [value.sketch]
  | negate operand => .mk (Shape.operation.label "neg") [operand.sketch]
  | binary op left right => .mk (Shape.operation.label op.text) [left.sketch, right.sketch]
  | declare name none => .mk (Shape.declare.label name) []
  | declare name (some initial) => .mk (Shape.declare.label name) [initial.sketch]
  | print value => .mk (Shape.print.label "") [value.sketch]
  | printText text => .mk (Shape.printText.label text) []
  | branch condition yes none =>
    .mk (Shape.branch.label "") [condition.sketch, .mk (Shape.block.label "") (sketches yes)]
  | branch condition yes (some no) =>
    .mk (Shape.branch.label "") [condition.sketch, .mk (Shape.block.label "") (sketches yes),
      .mk (Shape.otherwise.label "") (sketches no)]
  | block statements => .mk (Shape.block.label "") (sketches statements)
  | unknown _ => .mk (Shape.number.label "NaN") []

def sketches : List Node → List Sketch
  | [] => []
  | node :: nodes => node.sketch :: sketches nodes

end

theorem sketches_eq_map (nodes : List Node) : sketches nodes = nodes.map sketch := by
  induction nodes with
  | nil => rfl
  | cons node nodes ih => rw [sketches, ih, List.map_cons]

section Drawing

open Sketch (lines linesAll)

mutual

/-- **A drawing shows the labels of a node.** -/
theorem drawing_eq : ∀ node : Node, node.drawing = node.sketch.lines
  | number _ | var _ | declare _ none | unknown _ => rfl
  | assign name value => by
    simp [drawing, sketch, lines, linesAll, drawing_eq value, Shape.label, Shape.front, Shape.back]
  | negate operand => by
    rw [drawing, sketch, lines, linesAll, linesAll, drawing_eq operand]
    rfl
  | binary op left right => by
    simp [drawing, sketch, lines, linesAll, drawing_eq left, drawing_eq right, Shape.label,
      Shape.front, Shape.back]
  | declare name (some initial) => by
    simp [drawing, sketch, lines, linesAll, drawing_eq initial, Shape.label, Shape.front, Shape.back]
  | print value => by
    simp [drawing, sketch, lines, linesAll, drawing_eq value, Shape.label, Shape.front, Shape.back]
  | printText text => by
    simp [drawing, sketch, lines, linesAll, hangAll, Shape.label, Shape.front, Shape.back]
  | branch condition yes none => by
    simp [drawing, sketch, lines, linesAll, drawing_eq condition, drawings_eq yes, Shape.label,
      Shape.front, Shape.back]
  | branch condition yes (some no) => by
    simp [drawing, sketch, lines, linesAll, drawing_eq condition, drawings_eq yes, drawings_eq no,
      Shape.label, Shape.front, Shape.back]
  | block statements => by
    simp [drawing, sketch, lines, drawings_eq statements, Shape.label, Shape.front, Shape.back]

theorem drawings_eq : ∀ nodes : List Node, drawings nodes = linesAll (sketches nodes)
  | [] => rfl
  | node :: nodes => by
    rw [drawings, sketches, linesAll, drawing_eq node, drawings_eq nodes]

end

end Drawing

/-! ## Nodes that are found again -/

mutual

/-- The node that a tree of labels stands for, if it is one. -/
def ofSketch? : Sketch → Option Node
  | .mk label parts => do ofLabel? label (← ofSketches? parts)

def ofSketches? : List Sketch → Option (List Node)
  | [] => some []
  | s :: ss => return (← ofSketch? s) :: (← ofSketches? ss)

end

/-- Names and texts are on one line, and no node is unknown but a number without a value. -/
inductive Legible : Node → Prop
  | number (value : Int) : Legible (.number value)
  | nan : Legible (Parse.numberNode "NaN")
  | var {name : UnitText} (hn : unit '\n' ∉ name) : Legible (.var name)
  | assign {name : UnitText} {value : Node} (hn : unit '\n' ∉ name) (hv : Legible value) :
    Legible (.assign name value)
  | negate {operand : Node} (h : Legible operand) : Legible (.negate operand)
  | binary {op : BinaryOp} {left right : Node} (hl : Legible left) (hr : Legible right) :
    Legible (.binary op left right)
  | declare {name : UnitText} (hn : unit '\n' ∉ name) : Legible (.declare name none)
  | initial {name : UnitText} {value : Node} (hn : unit '\n' ∉ name) (hv : Legible value) :
    Legible (.declare name (some value))
  | print {value : Node} (hv : Legible value) : Legible (.print value)
  | printText {text : UnitText} (ht : unit '\n' ∉ text) : Legible (.printText text)
  | branch {condition : Node} {yes : List Node} (hc : Legible condition)
    (hy : ∀ node ∈ yes, Legible node) : Legible (.branch condition yes none)
  | branchElse {condition : Node} {yes no : List Node} (hc : Legible condition)
    (hy : ∀ node ∈ yes, Legible node) (hn : ∀ node ∈ no, Legible node) :
    Legible (.branch condition yes (some no))
  | block {statements : List Node} (hs : ∀ node ∈ statements, Legible node) :
    Legible (.block statements)

/-- The labels of a legible node are plain. -/
theorem Legible.plain {node : Node} (h : node.Legible) : node.sketch.Plain := by
  have parts {nodes : List Node} (h : ∀ node ∈ nodes, node.sketch.Plain) :
      ∀ s ∈ sketches nodes, s.Plain := by
    rw [sketches_eq_map]
    exact List.forall_mem_map.mpr h
  have block {s : Shape} {nodes : List Node} (h : ∀ node ∈ nodes, node.sketch.Plain) :
      (Sketch.mk (s.label "") (sketches nodes)).Plain :=
    .mk (s.plainLabel nofun) (parts h)
  induction h with
  | number value =>
    exact .mk (Shape.plainLabel _ (Text.notMem_units_toString_int (by decide) (by decide) value)) nofun
  | nan => exact .mk (Shape.plainLabel _ (by decide)) nofun
  | var hn | declare hn | printText hn => exact .mk (Shape.plainLabel _ hn) nofun
  | assign hn _ ih | initial hn _ ih =>
    exact .mk (Shape.plainLabel _ hn) (List.forall_mem_singleton.mpr ih)
  | negate _ ih | print _ ih =>
    exact .mk (Shape.plainLabel _ (by decide)) (List.forall_mem_singleton.mpr ih)
  | @binary op left right _ _ ihl ihr =>
    refine .mk (Shape.plainLabel _ (by cases op <;> decide)) ?_
    exact List.forall_mem_cons.mpr ⟨ihl, List.forall_mem_singleton.mpr ihr⟩
  | branch _ _ ihc ihy =>
    refine .mk (Shape.plainLabel _ nofun) ?_
    exact List.forall_mem_cons.mpr ⟨ihc, List.forall_mem_singleton.mpr (block ihy)⟩
  | branchElse _ _ _ ihc ihy ihn =>
    refine .mk (Shape.plainLabel _ nofun) ?_
    refine List.forall_mem_cons.mpr ⟨ihc, List.forall_mem_cons.mpr ⟨block ihy, ?_⟩⟩
    exact List.forall_mem_singleton.mpr (block ihn)
  | block _ ih => exact block ih

theorem ofSketches?_sketches {nodes : List Node}
    (h : ∀ node ∈ nodes, ofSketch? node.sketch = some node) :
    ofSketches? (sketches nodes) = some nodes := by
  induction nodes with
  | nil => rfl
  | cons node nodes ih =>
    obtain ⟨first, more⟩ := List.forall_mem_cons.mp h
    rw [sketches, ofSketches?, first, ih more]
    rfl

theorem ofSketch?_mk {s : Shape} {inner : UnitText} {parts : List Sketch} {node : Node}
    (nodes : List Node) (hp : ofSketches? parts = some nodes) (h : s.node? inner nodes = some node) :
    ofSketch? (.mk (s.label inner) parts) = some node := by
  rw [ofSketch?, hp]
  exact ofLabel?_label h

theorem ofSketch?_block {s : Shape} {statements : List Node} (hs : s = .block ∨ s = .otherwise)
    (h : ∀ node ∈ statements, ofSketch? node.sketch = some node) :
    ofSketch? (.mk (s.label "") (sketches statements)) = some (.block statements) := by
  obtain rfl | rfl := hs <;> exact ofSketch?_mk statements (ofSketches?_sketches h) rfl

/-- **A legible node is found again in its labels.** -/
theorem ofSketch?_sketch {node : Node} (h : node.Legible) : ofSketch? node.sketch = some node := by
  induction h with
  | number value =>
    exact ofSketch?_mk [] rfl (congrArg some (Parse.numberNode_toString_int value))
  | nan | var | declare | printText => exact ofSketch?_mk [] rfl rfl
  | assign _ _ ih | negate _ ih | initial _ _ ih | print _ ih =>
    refine ofSketch?_mk [_] ?_ rfl
    exact ofSketches?_sketches (List.forall_mem_singleton.mpr ih)
  | @binary op left right _ _ ihl ihr =>
    refine ofSketch?_mk [left, right] ?_ (by cases op <;> rfl)
    exact ofSketches?_sketches (List.forall_mem_cons.mpr ⟨ihl, List.forall_mem_singleton.mpr ihr⟩)
  | @branch condition yes _ _ ihc ihy =>
    refine ofSketch?_mk [condition, .block yes] ?_ rfl
    rw [ofSketches?, ihc, ofSketches?, ofSketch?_block (.inl rfl) ihy]
    rfl
  | @branchElse condition yes no _ _ _ ihc ihy ihn =>
    refine ofSketch?_mk [condition, .block yes, .block no] ?_ rfl
    rw [ofSketches?, ihc, ofSketches?, ofSketch?_block (.inl rfl) ihy, ofSketches?,
      ofSketch?_block (.inr rfl) ihn]
    rfl
  | block _ ih => exact ofSketch?_block (.inl rfl) ih

end Node

end IntLang
