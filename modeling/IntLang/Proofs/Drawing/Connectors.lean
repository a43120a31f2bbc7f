import IntLang.Proofs.Drawing.Shapes
import Mathlib.Data.List.Chain

/-!
# Connectors

The columns in front of a label lead back to the root: the last is the branch on which the node hangs, the
others let the branches of its ancestors pass. What begins in one line has to go on in the next.

* `Sketch.at?`: the tree at an address, the way down from the root; addresses in the order of lists are
  the nodes in pre-order;
* `Drawn`: a line with its address, its columns and its label; `Sketch.drawn` are those of a tree;
* `Sketch.Stands`: how the line of a node comes from its line in the part that it lies in;
* `Joins`: the columns of a line meet those of the next, as `isChain_drawn` says of all;
* **`draw_connected`**: a drawing has a line for each node, and its connectors join up.
-/

namespace IntLang

/-! ## Columns -/

/-- A step down in front of a label. -/
structure Column where
  /-- The node itself hangs on it, not one below. -/
  own : Bool
  /-- Nothing hangs on it further down. -/
  last : Bool
  deriving DecidableEq, Repr

namespace Column

def text : Column → UnitText
  | ⟨true, true⟩ => "+-- "
  | ⟨true, false⟩ => "|-- "
  | ⟨false, true⟩ => "    "
  | ⟨false, false⟩ => "|   "

theorem length_text (c : Column) : c.text.length = 4 := by
  rcases c with ⟨_ | _, _ | _⟩ <;> rfl

theorem oneLine_text (c : Column) : unit '\n' ∉ c.text := by
  rcases c with ⟨_ | _, _ | _⟩ <;> decide

theorem text_of_own {c : Column} (h : c.own = true) :
    (c.text = "+-- " ∨ c.text = "|-- ") ∧ (c.text = "+-- " ↔ c.last = true) := by
  obtain ⟨own, _ | _⟩ := c <;> obtain rfl := h <;> decide

theorem text_of_passing {c : Column} (h : c.own = false) :
    (c.text = "|   " ∨ c.text = "    ") ∧ (c.text = "|   " ↔ c.last = false) := by
  obtain ⟨own, _ | _⟩ := c <;> obtain rfl := h <;> decide

/-- What may stand below a column, if the line below has as many. -/
structure Meets (c : Column) (below : Option Column) : Prop where
  goesOn : c.text = "|-- " ∨ c.text = "|   " →
    ∃ d ∈ below, d.text = "|-- " ∨ d.text = "|   " ∨ d.text = "+-- "
  ends : c.text = "+-- " ∨ c.text = "    " → ∀ d ∈ below, d.text = "    "

theorem meets_passing (own isLast : Bool) : Meets ⟨own, isLast⟩ (some ⟨false, isLast⟩) := by
  cases own <;> cases isLast <;> exact ⟨by simp [text], by simp [text]⟩

/-- The next branch. -/
theorem meets_own (own isLast : Bool) : Meets ⟨own, false⟩ (some ⟨true, isLast⟩) := by
  cases own <;> cases isLast <;> exact ⟨by simp [text], by simp [text]⟩

theorem meets_none (own : Bool) : Meets ⟨own, true⟩ none := by
  cases own <;> exact ⟨by simp [text], nofun⟩

end Column

/-- The columns of a line meet those of the next. -/
def Joins : List Column → List Column → Prop
  | [], _ => True
  | c :: cs, below => c.Meets below.head? ∧ Joins cs below.tail

theorem Joins.meets {cs below : List Column} (h : Joins cs below) {d : Nat} {c : Column}
    (hc : c ∈ cs[d]?) : c.Meets below[d]? := by
  induction cs generalizing d below with
  | nil => cases hc
  | cons c' cs ih =>
    cases d with
    | zero =>
      obtain rfl : c' = c := by simpa using hc
      rw [← List.head?_eq_getElem?]
      exact h.1
    | succ d =>
      have hd : below[d + 1]? = below.tail[d]? := by simp
      rw [hd]
      exact ih h.2 (by simpa using hc)

/-! ## Lines with their nodes -/

/-- The line of a node. -/
structure Drawn where
  /-- The way down to the node: which part to take, at each step. -/
  address : List Nat
  columns : List Column
  label : UnitText

namespace Drawn

def text (l : Drawn) : UnitText := l.columns.foldr (·.text ++ ·) l.label

/-- The line of the same node below a tree that has its tree as a part. -/
def under (i : Nat) (isLast : Bool) (l : Drawn) : Drawn :=
  ⟨i :: l.address, ⟨l.columns.isEmpty, isLast⟩ :: l.columns, l.label⟩

theorem oneLine_text {l : Drawn} (h : unit '\n' ∉ l.label) : unit '\n' ∉ l.text := by
  obtain ⟨address, columns, label⟩ := l
  induction columns with
  | nil => exact h
  | cons c columns ih =>
    exact List.not_mem_append c.oneLine_text (ih h)

end Drawn

namespace Sketch

def label : Sketch → UnitText
  | mk label _ => label

def parts : Sketch → List Sketch
  | mk _ parts => parts

/-- The tree at an address. -/
def at? (s : Sketch) : List Nat → Option Sketch
  | [] => some s
  | i :: address => s.parts[i]?.bind (·.at? address)

mutual

def drawn : Sketch → List Drawn
  | mk label parts => ⟨[], [], label⟩ :: drawnFrom 0 parts

/-- The parts from number `i` on. -/
def drawnFrom (i : Nat) : List Sketch → List Drawn
  | [] => []
  | s :: ss => s.drawn.map (.under i ss.isEmpty) ++ drawnFrom (i + 1) ss

end

theorem drawn_eq (s : Sketch) : s.drawn = ⟨[], [], s.label⟩ :: drawnFrom 0 s.parts := by
  cases s
  rw [drawn, label, parts]

theorem mem_drawnFrom {l : Drawn} {ss : List Sketch} {i : Nat} :
    l ∈ drawnFrom i ss ↔ ∃ (j : Nat) (s : Sketch), ss[j]? = some s ∧
      ∃ l' ∈ s.drawn, l'.under (i + j) (j + 1 == ss.length) = l := by
  induction ss generalizing i with
  | nil => simp [drawnFrom]
  | cons s ss ih =>
    have first : (0 + 1 == (s :: ss).length) = ss.isEmpty := by cases ss <;> simp
    have next : ∀ (j : Nat) (l' : Drawn), l'.under (i + (j + 1)) (j + 1 + 1 == (s :: ss).length) =
        l'.under (i + 1 + j) (j + 1 == ss.length) := by
      intro j l'
      rw [List.length_cons, Nat.add_right_comm i 1 j, Nat.add_assoc i j 1]
      simp
    rw [drawnFrom, List.mem_append, List.mem_map, ih]
    constructor
    · rintro (⟨l', hl', rfl⟩ | ⟨j, t, ht, l', hl', rfl⟩)
      · exact ⟨0, s, rfl, l', hl', by rw [first, Nat.add_zero]⟩
      · exact ⟨j + 1, t, ht, l', hl', next j l'⟩
    · rintro ⟨_ | j, t, ht, l', hl', rfl⟩
      · obtain rfl : s = t := Option.some.inj ht
        exact .inl ⟨l', hl', by rw [first, Nat.add_zero]⟩
      · exact .inr ⟨j, t, ht, l', hl', (next j l').symm⟩

/-! ## The text of the lines -/

/-- Only the first line has no columns. -/
theorem isEmpty_columns {l : Drawn} {ss : List Sketch} {i : Nat} (h : l ∈ drawnFrom i ss) :
    l.columns.isEmpty = false := by
  obtain ⟨j, s, -, l', -, rfl⟩ := mem_drawnFrom.mp h
  rfl

theorem map_text_under (s : Sketch) (i : Nat) (isLast : Bool) :
    (s.drawn.map (.under i isLast)).map Drawn.text = hang isLast (s.drawn.map Drawn.text) := by
  have deeper : ∀ l ∈ drawnFrom 0 s.parts, (l.under i isLast).text =
      Text.units (if isLast then "    " else "|   ") ++ l.text := by
    intro l hl
    rw [Drawn.under, isEmpty_columns hl]
    cases isLast <;> rfl
  rw [drawn_eq, List.map_cons, List.map_cons, List.map_cons, hang, List.map_map, List.map_map]
  congr 1
  · cases isLast <;> rfl
  · exact List.map_congr_left deeper

mutual

theorem lines_eq : ∀ s : Sketch, s.lines = s.drawn.map Drawn.text
  | mk label parts => by
    rw [lines, drawn, List.map_cons, hangAll_eq parts 0]
    rfl

theorem hangAll_eq : ∀ (ss : List Sketch) (i : Nat),
    hangAll (linesAll ss) = (drawnFrom i ss).map Drawn.text
  | [], _ => rfl
  | s :: ss, i => by
    have empty : (linesAll ss).isEmpty = ss.isEmpty := by cases ss <;> rfl
    rw [linesAll, hangAll_cons, lines_eq s, hangAll_eq ss (i + 1), drawnFrom, List.map_append,
      map_text_under, empty]

end

/-! ## Where a line stands -/

/-- The line of a node of the tree. -/
inductive Stands : Sketch → Drawn → Prop
  | root (s : Sketch) : Stands s ⟨[], [], s.label⟩
  | under {s part : Sketch} {i : Nat} {l : Drawn} (hp : s.parts[i]? = some part) (hl : part.Stands l) :
    Stands s (l.under i (i + 1 == s.parts.length))

theorem stands_of_mem {s : Sketch} {l : Drawn} (h : l ∈ s.drawn) : s.Stands l := by
  -- One step down at a time: a part of a tree is found by the rest of the address.
  induction ha : l.address generalizing s l with
  | nil =>
    rw [drawn_eq, List.mem_cons] at h
    obtain rfl | h := h
    · exact .root s
    · obtain ⟨i, part, -, l', -, rfl⟩ := mem_drawnFrom.mp h
      cases ha
  | cons k address ih =>
    rw [drawn_eq, List.mem_cons] at h
    obtain rfl | h := h
    · cases ha
    · obtain ⟨i, part, hp, l', hl', rfl⟩ := mem_drawnFrom.mp h
      rw [Nat.zero_add]
      exact .under hp (ih hl' (List.tail_eq_of_cons_eq ha))

/-- No node is left out. -/
theorem exists_mem_drawn {s t : Sketch} {address : List Nat} (h : s.at? address = some t) :
    ∃ l ∈ s.drawn, l.address = address := by
  induction address generalizing s with
  | nil =>
    rw [drawn_eq]
    exact ⟨_, List.mem_cons_self, rfl⟩
  | cons i address ih =>
    obtain ⟨part, hp, ht⟩ := Option.bind_eq_some_iff.mp h
    obtain ⟨l, hl, rfl⟩ := ih ht
    refine ⟨l.under i (i + 1 == s.parts.length), ?_, rfl⟩
    rw [drawn_eq]
    exact List.mem_cons_of_mem _ (mem_drawnFrom.mpr ⟨i, part, hp, l, hl, by rw [Nat.zero_add]⟩)

namespace Stands

variable {s : Sketch} {l : Drawn}

theorem label_eq (h : s.Stands l) : (s.at? l.address).map label = some l.label := by
  induction h with
  | root => rfl
  | @under s part i l hp _ ih =>
    change (s.parts[i]?.bind (·.at? l.address)).map label = some l.label
    rw [hp, Option.bind_some, ih]

theorem length_columns (h : s.Stands l) : l.columns.length = l.address.length := by
  induction h with
  | root => rfl
  | under _ _ ih => exact congrArg (· + 1) ih

/-- **What a column says.** It belongs to the node on the way down that it stands for: it is its own in the
line of that node alone, and goes on as long as that node has a later sibling. -/
theorem column (h : s.Stands l) {above below : List Nat} {i : Nat}
    (ha : l.address = above ++ i :: below) : ∃ c ∈ l.columns[above.length]?,
      (c.own = true ↔ below = []) ∧ (c.last = false ↔ ∃ j > i, (s.at? (above ++ [j])).isSome) := by
  induction h generalizing above i with
  | root =>
    cases above <;> cases ha
  | @under s part k l hp hl ih =>
    cases above with
    | nil =>
      obtain ⟨rfl, rfl⟩ : k = i ∧ l.address = below := List.cons_eq_cons.mp ha
      refine ⟨_, rfl, ?_, ?_⟩
      · rw [List.isEmpty_iff, ← List.length_eq_zero_iff, ← List.length_eq_zero_iff,
          hl.length_columns]
      · have hk : k < s.parts.length := (List.getElem?_eq_some_iff.mp hp).1
        have later : ∀ j, (s.at? ([] ++ [j])).isSome ↔ j < s.parts.length := by simp [at?]
        simp only [later, beq_eq_false_iff_ne]
        constructor
        · intro hne
          exact ⟨k + 1, by omega, by omega⟩
        · rintro ⟨j, hj, hlt⟩
          omega
    | cons k' above =>
      obtain ⟨rfl, ha'⟩ : k = k' ∧ l.address = above ++ i :: below := List.cons_eq_cons.mp ha
      have hs : ∀ j, s.at? (k :: above ++ [j]) = part.at? (above ++ [j]) := by simp [at?, hp]
      simp only [hs]
      exact ih ha'

end Stands

/-! ## Pre-order -/

mutual

theorem pairwise_drawn : ∀ s : Sketch, s.drawn.Pairwise (·.address < ·.address)
  | mk label parts => by
    rw [drawn, List.pairwise_cons]
    refine ⟨fun l hl => ?_, pairwise_drawnFrom parts 0⟩
    obtain ⟨j, t, -, l', -, rfl⟩ := mem_drawnFrom.mp hl
    exact List.nil_lt_cons _ _

theorem pairwise_drawnFrom : ∀ (ss : List Sketch) (i : Nat),
    (drawnFrom i ss).Pairwise (·.address < ·.address)
  | [], _ => .nil
  | s :: ss, i => by
    rw [drawnFrom, List.pairwise_append, List.pairwise_map]
    refine ⟨(pairwise_drawn s).imp fun h => ?_, pairwise_drawnFrom ss (i + 1), ?_⟩
    · exact List.cons_lt_cons_iff.mpr (.inr ⟨rfl, h⟩)
    · rintro _ hl l' hl'
      obtain ⟨l, -, rfl⟩ := List.mem_map.mp hl
      obtain ⟨j, t, -, l', -, rfl⟩ := mem_drawnFrom.mp hl'
      exact List.cons_lt_cons_iff.mpr (.inl (by omega))

end

/-! ## Neighbouring lines -/

theorem map_columns_under (s : Sketch) (i : Nat) (isLast : Bool) :
    (s.drawn.map (.under i isLast)).map Drawn.columns =
      [⟨true, isLast⟩] :: ((drawnFrom 0 s.parts).map Drawn.columns).map (⟨false, isLast⟩ :: ·) := by
  have deeper : ∀ l ∈ drawnFrom 0 s.parts,
      (l.under i isLast).columns = ⟨false, isLast⟩ :: l.columns := by
    intro l hl
    rw [Drawn.under, isEmpty_columns hl]
  rw [drawn_eq, List.map_cons, List.map_cons, List.map_map, List.map_map]
  exact congrArg ([⟨true, isLast⟩] :: ·) (List.map_congr_left deeper)

/-- Lines that join up still do behind one more column, if it meets the line below them. -/
theorem isChain_under {isLast : Bool} {below : List Column} (hb : below.tail = [])
    (hm : ∀ own, Column.Meets ⟨own, isLast⟩ below.head?) :
    ∀ (lines : List (List Column)) (cs : List Column) (own : Bool),
      (cs :: lines ++ [[]]).IsChain Joins →
        ((⟨own, isLast⟩ :: cs) :: lines.map (⟨false, isLast⟩ :: ·) ++ [below]).IsChain Joins
  | [], cs, own, h => by
    obtain ⟨hj, -⟩ := List.isChain_cons_cons.mp h
    refine List.isChain_cons_cons.mpr ⟨⟨hm own, ?_⟩, .singleton _⟩
    rwa [hb]
  | cs' :: lines, cs, own, h => by
    obtain ⟨hj, h⟩ := List.isChain_cons_cons.mp h
    refine List.isChain_cons_cons.mpr ⟨⟨?_, hj⟩, isChain_under hb hm lines cs' false h⟩
    exact Column.meets_passing own isLast

/-- What stands below a part: the branch of the next, or no line that lies as deep. -/
theorem exists_below (ss : List Sketch) (i : Nat) : ∃ below lines,
    (drawnFrom i ss).map Drawn.columns ++ [[]] = below :: lines ∧ below.tail = [] ∧
      ∀ own, Column.Meets ⟨own, ss.isEmpty⟩ below.head? := by
  cases ss with
  | nil => exact ⟨[], [], rfl, rfl, Column.meets_none⟩
  | cons s ss =>
    rw [drawnFrom, List.map_append, map_columns_under]
    exact ⟨[⟨true, ss.isEmpty⟩], _, rfl, rfl, (Column.meets_own · ss.isEmpty)⟩

mutual

/-- **Neighbouring lines join up**, and nothing goes on below the last. -/
theorem isChain_drawn : ∀ s : Sketch, (s.drawn.map Drawn.columns ++ [[]]).IsChain Joins
  | mk label parts => by
    obtain ⟨below, lines, he, -⟩ := exists_below parts 0
    have chain := isChain_drawnFrom parts 0
    rw [he] at chain
    rw [drawn, List.map_cons, List.cons_append, he]
    exact List.isChain_cons_cons.mpr ⟨trivial, chain⟩

theorem isChain_drawnFrom : ∀ (ss : List Sketch) (i : Nat),
    ((drawnFrom i ss).map Drawn.columns ++ [[]]).IsChain Joins
  | [], _ => .singleton _
  | s :: ss, i => by
    obtain ⟨below, lines, he, ht, hm⟩ := exists_below ss (i + 1)
    have first := isChain_drawn s
    rw [drawn_eq, List.map_cons] at first
    have more := isChain_drawnFrom ss (i + 1)
    rw [he] at more
    -- The end of the first drawing gives way to what stands below it.
    rw [drawnFrom, List.map_append, map_columns_under, List.append_assoc, he]
    exact List.isChain_split.mpr ⟨isChain_under ht hm _ [] true first, more⟩

end

/-- **Each column of a line is met in the next.** -/
theorem meets_of_drawn {s : Sketch} {above below : List Drawn} {l : Drawn}
    (h : s.drawn = above ++ l :: below) {d : Nat} {c : Column} (hc : c ∈ l.columns[d]?) :
    c.Meets (below.head?.bind (·.columns[d]?)) := by
  have chain := isChain_drawn s
  rw [h, List.map_append, List.map_cons, List.append_assoc, List.cons_append] at chain
  have chain := (List.isChain_split.mp chain).2
  cases below with
  | nil => simpa using (List.isChain_cons_cons.mp chain).1.meets hc
  | cons l' below => exact (List.isChain_cons_cons.mp chain).1.meets hc

/-! ## Drawings -/

/-- The lines of a drawing have the nodes of a tree in pre-order, and their connectors join up. -/
structure Connected (s : Sketch) (lines : List Drawn) : Prop where
  complete : ∀ address, (∃ l ∈ lines, l.address = address) ↔ (s.at? address).isSome
  /-- No part comes in front of its tree, or of a part with a smaller number. -/
  ordered : lines.Pairwise (·.address < ·.address)
  labelled : ∀ l ∈ lines, (s.at? l.address).map label = some l.label
  deep : ∀ l ∈ lines, l.columns.length = l.address.length ∧ ∀ c ∈ l.columns, c.text.length = 4
  meets : ∀ (above : List Drawn) (l : Drawn) (below : List Drawn), lines = above ++ l :: below →
    ∀ d : Nat, ∀ c ∈ l.columns[d]?, c.Meets (below.head?.bind (·.columns[d]?))
  /-- The last column is that of the node itself: the last part of its tree, or not. -/
  own : ∀ l ∈ lines, ∀ above i, l.address = above ++ [i] → ∃ c ∈ l.columns.getLast?,
    (c.text = Text.units "+-- " ∨ c.text = Text.units "|-- ") ∧
      (c.text = Text.units "+-- " ↔ ∀ j, (s.at? (above ++ [j])).isSome → j ≤ i)
  /-- The others are those of its ancestors, which have a later sibling or not. -/
  passing : ∀ l ∈ lines, ∀ above i below, l.address = above ++ i :: below → below ≠ [] →
    ∃ c ∈ l.columns[above.length]?, (c.text = Text.units "|   " ∨ c.text = Text.units "    ") ∧
      (c.text = Text.units "|   " ↔ ∃ j > i, (s.at? (above ++ [j])).isSome)

theorem connected_drawn (s : Sketch) : s.Connected s.drawn where
  complete address := by
    rw [Option.isSome_iff_exists]
    constructor
    · rintro ⟨l, hl, rfl⟩
      obtain ⟨t, ht, -⟩ := Option.map_eq_some_iff.mp (stands_of_mem hl).label_eq
      exact ⟨t, ht⟩
    · rintro ⟨t, ht⟩
      exact exists_mem_drawn ht
  ordered := pairwise_drawn s
  labelled _ hl := (stands_of_mem hl).label_eq
  deep l hl := ⟨(stands_of_mem hl).length_columns, fun c _ => c.length_text⟩
  meets _ _ _ h _ _ := meets_of_drawn h
  own l hl above i ha := by
    have stands := stands_of_mem hl
    obtain ⟨c, hc, own, goesOn⟩ := stands.column ha
    have hlast : l.columns.getLast? = l.columns[above.length]? := by
      rw [List.getLast?_eq_getElem?, stands.length_columns, ha]
      simp
    obtain ⟨text, corner⟩ := Column.text_of_own (own.mpr rfl)
    refine ⟨c, hlast.trans hc, text, ?_⟩
    rw [corner, ← Bool.not_eq_false, goesOn]
    push Not
    exact forall_congr' fun j => imp_not_comm.trans (imp_congr_right fun _ => Nat.not_lt)
  passing l hl above i below ha hb := by
    obtain ⟨c, hc, own, goesOn⟩ := (stands_of_mem hl).column ha
    obtain ⟨text, trunk⟩ := Column.text_of_passing (Bool.eq_false_iff.mpr (mt own.mp hb))
    exact ⟨c, hc, text, trunk.trans goesOn⟩

end Sketch

/-- **A drawing has a line for each node, and its connectors join up**, if no label holds a line feed. -/
theorem draw_connected (node : Node) (h : ∀ l ∈ node.sketch.drawn, unit '\n' ∉ l.label) :
    Text.runs (unit '\n') node.draw = node.sketch.drawn.map Drawn.text ∧
      node.sketch.Connected node.sketch.drawn := by
  refine ⟨?_, node.sketch.connected_drawn⟩
  have nonempty : node.sketch.drawn.map Drawn.text ≠ [] := by
    rw [Sketch.drawn_eq]
    exact List.cons_ne_nil _ _
  have oneLine : ∀ line ∈ node.sketch.drawn.map Drawn.text, unit '\n' ∉ line :=
    List.forall_mem_map.mpr fun l hl => Drawn.oneLine_text (h l hl)
  rw [Node.draw, Node.drawing_eq, Sketch.lines_eq]
  exact Text.runs_intercalate nonempty oneLine

/-- A branch with an else-block that holds a statement. -/
def Node.fork : Node :=
  .branch (.binary .add (.var "a") (.number 2)) [.print (.var "a")] (some [.declare "b" none])

theorem draw_connected_fork :
    (∀ l ∈ Node.fork.sketch.drawn, unit '\n' ∉ l.label) ∧
      Text.runs (unit '\n') Node.fork.draw = Node.fork.sketch.drawn.map Drawn.text ∧
        Node.fork.sketch.Connected Node.fork.sketch.drawn := by
  have h : ∀ l ∈ Node.fork.sketch.drawn, unit '\n' ∉ l.label := by decide +kernel
  exact ⟨h, draw_connected Node.fork h⟩

end IntLang
