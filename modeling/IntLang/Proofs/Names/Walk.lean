import IntLang.Parse.Chain
import IntLang.Proofs.Names.Replay

/-!
# What a program does with names

A finished program is walked statement by statement, and every statement from its leaves up: a name
is declared behind its initial value, assigned behind the value it gets, and a branch comes to its
condition first, then to its blocks in their order.

* `Node.events` and `Program.events` list what a walk meets, `Program.walk` checks it in a scope;
* **`Chain.collect_tree`**, `Chain.events_tree`: the tree of a chain meets what the chain meets in the
  order of its operands, whatever the operators between them.
-/

namespace IntLang

/-! ## Nodes -/

mutual

def Node.events : Node → List NameEvent
  | .number _ => []
  | .var name => [.uses name]
  | .assign name value => value.events ++ [.uses name]
  | .negate operand => operand.events
  | .binary _ left right => left.events ++ right.events
  | .declare name none => [.declares name]
  | .declare name (some initial) => initial.events ++ [.declares name]
  | .print value => value.events
  | .printText _ => []
  | .branch condition yes none => condition.events ++ Program.events yes
  | .branch condition yes (some no) => condition.events ++ Program.events yes ++ Program.events no
  | .block statements => Program.events statements
  | .unknown _ => []

def Program.events : List Node → List NameEvent
  | [] => []
  | node :: nodes => node.events ++ Program.events nodes

end

/-- The first name that the scope refuses, if there is one, and the scope as it was then. -/
def Program.walk (program : Program) (scope : Scope) : Option CompileError × Scope :=
  NameCheck.replay Scope.apply scope (Program.events program)

/-! ## Chains -/

namespace Chain

/-- Joining around the operators of a level leaves the other operators. -/
theorem ops_joinFrom (level : Level) (left : Node) (more : List (BinaryOp × Node)) :
    (joinFrom level left more).more.map Prod.fst =
      (more.map Prod.fst).filter fun op => op.level ≠ level := by
  induction more generalizing left with
  | nil => rfl
  | cons p more ih =>
    obtain ⟨op, right⟩ := p
    simp only [joinFrom]
    split
    · next h => simp [ih, h]
    · next h => simp [ih, h]

theorem ops_join (level : Level) (c : Chain) :
    (c.join level).more.map Prod.fst = (c.more.map Prod.fst).filter fun op => op.level ≠ level :=
  ops_joinFrom level c.first c.more

/-- All operators belong to one of the three levels, so none is left in the end. -/
theorem more_joins (c : Chain) :
    (((c.join .multiplicative).join .additive).join .comparison).more = [] := by
  rw [← List.map_eq_nil_iff (f := Prod.fst), ops_join, ops_join, ops_join]
  simp only [List.filter_filter, List.filter_eq_nil_iff]
  intro op _
  cases op.level <;> simp

section Collect

variable {α : Type} {f : Node → List α}

/-- What is collected from operands, in their order. -/
def collect (f : Node → List α) (c : Chain) : List α := f c.first ++ c.more.flatMap fun p => f p.2

theorem collect_joinFrom (hf : ∀ op left right, f (.binary op left right) = f left ++ f right)
    (level : Level) (left : Node) (more : List (BinaryOp × Node)) :
    (joinFrom level left more).collect f = f left ++ more.flatMap fun p => f p.2 := by
  induction more generalizing left with
  | nil => rfl
  | cons p more ih =>
    obtain ⟨op, right⟩ := p
    simp only [joinFrom]
    split
    · rw [ih, hf, List.append_assoc, List.flatMap_cons]
    · have h := ih right
      simp only [collect, List.flatMap_cons] at h ⊢
      rw [h]

/-- **A tree holds what its chain holds**, in the order of the operands. -/
theorem collect_tree (hf : ∀ op left right, f (.binary op left right) = f left ++ f right)
    (c : Chain) : f c.tree = c.collect f := by
  have join (level : Level) (c : Chain) : (c.join level).collect f = c.collect f :=
    collect_joinFrom hf level c.first c.more
  have h := join .comparison ((c.join .multiplicative).join .additive)
  rw [collect, more_joins, List.flatMap_nil, List.append_nil] at h
  rw [tree, h, join, join]

end Collect

def moreEvents (more : List (BinaryOp × Node)) : List NameEvent := more.flatMap fun p => p.2.events

def events (c : Chain) : List NameEvent := c.first.events ++ moreEvents c.more

@[simp] theorem events_alone (node : Node) : (⟨node, []⟩ : Chain).events = node.events := by
  simp [events, moreEvents]

/-- **A tree meets the names of its chain in order.** -/
theorem events_tree (c : Chain) : c.tree.events = c.events :=
  collect_tree (fun _ _ _ => by rw [Node.events]) c

end Chain

end IntLang
