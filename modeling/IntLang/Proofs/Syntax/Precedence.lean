import IntLang.Proofs.Names.Walk

/-!
# Trees by splitting

Joining builds the tree of a chain from its tightest operators outwards. Seen from its root, the tree
splits the chain at one operator: the last one of the loosest level that occurs.

* `Chain.cut?` cuts a chain at its last operator of a level;
* `Chain.split` is the tree by splitting;
* `Chain.joins_splice`: joining at other levels goes on at both sides of an operator;
* **`Chain.tree_eq_split`**: both trees are the same.
-/

namespace IntLang

/-- The levels, the loosest first. -/
def Level.all : List Level := [.comparison, .additive, .multiplicative]

theorem Level.mem_all (level : Level) : level ∈ all := by cases level <;> decide

namespace Chain

/-! ## Splitting -/

/-- Two chains with an operator between them. -/
def splice (left : Chain) (op : BinaryOp) (right : Chain) : Chain :=
  ⟨left.first, left.more ++ (op, right.first) :: right.more⟩

/-- The last operator of a level, with the chains at its sides. -/
def cutFrom? (level : Level) (first : Node) :
    List (BinaryOp × Node) → Option (Chain × BinaryOp × Chain)
  | [] => none
  | (op, operand) :: more =>
    match cutFrom? level operand more with
    | some (left, last, right) => some (splice ⟨first, []⟩ op left, last, right)
    | none => if op.level = level then some (⟨first, []⟩, op, ⟨operand, more⟩) else none

def cut? (c : Chain) (level : Level) : Option (Chain × BinaryOp × Chain) :=
  cutFrom? level c.first c.more

theorem splice_splice (left middle right : Chain) (op last : BinaryOp) :
    splice left op (splice middle last right) = splice (splice left op middle) last right := by
  simp [splice]

theorem cutFrom?_eq_none {level : Level} {first : Node} {more : List (BinaryOp × Node)} :
    cutFrom? level first more = none ↔ ∀ p ∈ more, p.1.level ≠ level := by
  induction more generalizing first with
  | nil => simp [cutFrom?]
  | cons p more ih =>
    obtain ⟨op, operand⟩ := p
    rw [cutFrom?, List.forall_mem_cons, ← @ih operand]
    cases cutFrom? level operand more <;> simp

theorem of_cutFrom? {level : Level} {first : Node} {more : List (BinaryOp × Node)} {left right : Chain}
    {op : BinaryOp} (h : cutFrom? level first more = some (left, op, right)) :
    ⟨first, more⟩ = splice left op right ∧ op.level = level ∧ ∀ p ∈ right.more, p.1.level ≠ level := by
  induction more generalizing first left with
  | nil => cases h
  | cons p more ih =>
    obtain ⟨op', operand⟩ := p
    rw [cutFrom?] at h
    split at h
    · next left' last right' hcut =>
      cases h
      obtain ⟨heq, hop, hright⟩ := ih hcut
      refine ⟨?_, hop, hright⟩
      rw [← splice_splice, ← heq]
      rfl
    · next hcut =>
      split at h
      · next hop =>
        cases h
        exact ⟨rfl, hop, cutFrom?_eq_none.mp hcut⟩
      · cases h

theorem of_cut? {c left right : Chain} {level : Level} {op : BinaryOp}
    (h : c.cut? level = some (left, op, right)) :
    c = splice left op right ∧ op.level = level ∧ ∀ p ∈ right.more, p.1.level ≠ level :=
  of_cutFrom? h

/-- The tree of a chain by splitting: at its last comparison; without one, at its last additive
operator; without one, at its last multiplicative operator. -/
def split (c : Chain) : Node :=
  match _h : Level.all.findSome? c.cut? with
  | some (left, op, right) => .binary op left.split right.split
  | none => c.first
termination_by c.more.length
decreasing_by
  all_goals
    obtain ⟨level, -, hcut⟩ := List.exists_of_findSome?_eq_some _h
    obtain ⟨rfl, -⟩ := of_cut? hcut
    simp only [splice, List.length_append, List.length_cons]
    omega

/-! ## Joining -/

/-- Joins around the operators of several levels, at the last level first. -/
def joins (levels : List Level) (c : Chain) : Chain := levels.foldr join c

theorem tree_eq_joins (c : Chain) : c.tree = (c.joins Level.all).first := rfl

theorem joins_alone (levels : List Level) (node : Node) : joins levels ⟨node, []⟩ = ⟨node, []⟩ := by
  induction levels with
  | nil => rfl
  | cons level levels ih =>
    rw [joins, List.foldr_cons, ← joins, ih]
    rfl

theorem join_splice {level : Level} {op : BinaryOp} (hop : op.level ≠ level) (left right : Chain) :
    join level (splice left op right) = splice (join level left) op (join level right) := by
  obtain ⟨first, more⟩ := left
  simp only [splice, join]
  induction more generalizing first with
  | nil => simp [joinFrom, hop]
  | cons p more ih =>
    obtain ⟨op', operand⟩ := p
    simp only [List.cons_append, joinFrom]
    split
    · exact ih _
    · simp [ih]

/-- Neighbours of the level are joined from left to right, the last of them at the root. -/
theorem join_splice_last {level : Level} {op : BinaryOp} {left : Chain} (hop : op.level = level)
    (hleft : ∀ p ∈ left.more, p.1.level = level) (node : Node) :
    join level (splice left op ⟨node, []⟩) = ⟨.binary op (join level left).first node, []⟩ := by
  obtain ⟨first, more⟩ := left
  simp only [splice, join]
  induction more generalizing first with
  | nil => simp [joinFrom, hop]
  | cons p more ih =>
    obtain ⟨op', operand⟩ := p
    obtain ⟨hp, hmore⟩ := List.forall_mem_cons.mp hleft
    simp only [List.cons_append, joinFrom, if_pos hp]
    exact ih _ hmore

/-- **Joining at other levels goes on at both sides of an operator.** -/
theorem joins_splice {levels : List Level} {op : BinaryOp} (hop : op.level ∉ levels)
    (left right : Chain) :
    joins levels (splice left op right) = splice (joins levels left) op (joins levels right) := by
  induction levels with
  | nil => rfl
  | cons level levels ih =>
    obtain ⟨hl, hls⟩ := not_or.mp (fun h => hop (List.mem_cons.mpr h))
    simp only [joins, List.foldr_cons] at ih ⊢
    rw [ih hls, join_splice hl]

theorem ops_joins (levels : List Level) (c : Chain) :
    (c.joins levels).more.map Prod.fst = (c.more.map Prod.fst).filter fun op => op.level ∉ levels := by
  induction levels with
  | nil => exact (List.filter_eq_self.mpr (by simp)).symm
  | cons level levels ih =>
    rw [joins, List.foldr_cons, ← joins, ops_join, ih, List.filter_filter]
    simp [not_or]

/-- What is left behind joining belongs to another level. -/
theorem mem_more_joins {levels : List Level} {c : Chain} {p : BinaryOp × Node}
    (hp : p ∈ (c.joins levels).more) : p.1.level ∉ levels ∧ ∃ q ∈ c.more, q.1 = p.1 := by
  have h := List.mem_map_of_mem (f := Prod.fst) hp
  rw [ops_joins, List.mem_filter, List.mem_map] at h
  exact ⟨by simpa using h.2, h.1⟩

/-- With all its levels joined, a chain is one node. -/
theorem joins_eq_alone {levels : List Level} {c : Chain} (h : ∀ p ∈ c.more, p.1.level ∈ levels) :
    c.joins levels = ⟨(c.joins levels).first, []⟩ := by
  have hnil : (c.joins levels).more = [] := by
    refine List.eq_nil_iff_forall_not_mem.mpr fun p hp => ?_
    obtain ⟨hlevel, q, hq, hqp⟩ := mem_more_joins hp
    exact hlevel (hqp ▸ h q hq)
  rw [← hnil]

/-- Levels that do not occur may be joined last. -/
theorem joins_append {looser levels : List Level} {c : Chain} (h : ∀ p ∈ c.more, p.1.level ∈ levels) :
    c.joins (looser ++ levels) = c.joins levels := by
  rw [joins, List.foldr_append, ← joins, ← joins, joins_eq_alone h, joins_alone]

/-! ## Both trees -/

/-- The root of a joined chain is the last operator of the loosest level that occurs. -/
theorem first_joins_splice {looser tighter : List Level} {op : BinaryOp} {left right : Chain}
    (hop : op.level ∉ tighter) (hleft : ∀ p ∈ left.more, p.1.level ∈ op.level :: tighter)
    (hright : ∀ p ∈ right.more, p.1.level ∈ tighter) :
    ((splice left op right).joins (looser ++ op.level :: tighter)).first =
      .binary op (left.joins (looser ++ op.level :: tighter)).first
        (right.joins (looser ++ op.level :: tighter)).first := by
  have hwhole : ∀ p ∈ (splice left op right).more, p.1.level ∈ op.level :: tighter := by
    simp only [splice, List.forall_mem_append, List.forall_mem_cons]
    exact ⟨hleft, List.mem_cons_self, fun p hp => List.mem_cons_of_mem _ (hright p hp)⟩
  have hlevel : ∀ p ∈ (left.joins tighter).more, p.1.level = op.level := by
    intro p hp
    obtain ⟨hp, q, hq, hqp⟩ := mem_more_joins hp
    exact (List.mem_cons.mp (hqp ▸ hleft q hq)).resolve_right hp
  have hr : right.joins (looser ++ op.level :: tighter) = ⟨(right.joins tighter).first, []⟩ := by
    rw [List.append_cons, joins_append hright, ← joins_eq_alone hright]
  rw [hr, joins_append hleft, joins_append hwhole, joins, List.foldr_cons, ← joins, joins_splice hop,
    joins_eq_alone hright, join_splice_last rfl hlevel]
  rfl

/-- **The tree that joining makes is the tree by splitting.** -/
theorem tree_eq_split (c : Chain) : c.tree = c.split := by
  rw [tree_eq_joins]
  induction c using split.induct with
  | case1 c left op right h ihl ihr =>
    rw [split, h]
    dsimp only
    obtain ⟨looser, level, tighter, hall, hcut, hnone⟩ := List.findSome?_eq_some_iff.mp h
    obtain ⟨rfl, rfl, hright⟩ := of_cut? hcut
    have hlevels : ∀ p ∈ (splice left op right).more, p.1.level ∈ op.level :: tighter := by
      intro p hp
      refine (List.mem_append.mp (hall ▸ p.1.level.mem_all)).resolve_left fun hl => ?_
      exact cutFrom?_eq_none.mp (hnone _ hl) p hp rfl
    simp only [splice, List.forall_mem_append, List.forall_mem_cons] at hlevels
    have hop : op.level ∉ tighter := by
      have : (looser ++ op.level :: tighter).Nodup := hall ▸ by decide
      exact (List.nodup_cons.mp (List.nodup_append.mp this).2.1).1
    have hr : ∀ p ∈ right.more, p.1.level ∈ tighter := fun p hp =>
      (List.mem_cons.mp (hlevels.2.2 p hp)).resolve_left (hright p hp)
    rw [← ihl, ← ihr, hall, first_joins_splice hop hlevels.1 hr]
  | case2 c h =>
    have hmore : c.more = [] := by
      refine List.eq_nil_iff_forall_not_mem.mpr fun p hp => ?_
      have hnone := List.findSome?_eq_none_iff.mp h p.1.level p.1.level.mem_all
      exact cutFrom?_eq_none.mp hnone p hp rfl
    obtain ⟨first, more⟩ := c
    obtain rfl : more = [] := hmore
    rw [split, h, joins_alone]

end Chain

end IntLang
