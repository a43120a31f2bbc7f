import IntLang.Proofs.Syntax.Words

/-!
# Numbers in words

A number stands in the tree once for each word that wrote it, wherever it lies and whatever is around
it.

* `Node.numbers`, `Program.numbers`: the numbers of a tree, in the order of the source;
* `Word.numbers`: the number that a word makes, if it makes one;
* **`numbers_of_makesProgram`**: words that make a program make its numbers, in their order.
-/

namespace IntLang

/-! ## Trees -/

mutual

def Node.numbers : Node → List Int
  | .number value => [value]
  | .var _ => []
  | .assign _ value => value.numbers
  | .negate operand => operand.numbers
  | .binary _ left right => left.numbers ++ right.numbers
  | .declare _ none => []
  | .declare _ (some initial) => initial.numbers
  | .print value => value.numbers
  | .printText _ => []
  | .branch condition yes none => condition.numbers ++ Program.numbers yes
  | .branch condition yes (some no) =>
    condition.numbers ++ Program.numbers yes ++ Program.numbers no
  | .block statements => Program.numbers statements
  | .unknown _ => []

def Program.numbers : List Node → List Int
  | [] => []
  | node :: nodes => node.numbers ++ Program.numbers nodes

end

namespace Chain

def numbers (c : Chain) : List Int := c.collect Node.numbers

theorem numbers_tree (c : Chain) : c.tree.numbers = c.numbers :=
  collect_tree (fun _ _ _ => by rw [Node.numbers]) c

end Chain

/-! ## Words -/

/-- The number that a word makes, if it makes one. -/
def Word.numbers (w : Word) : List Int :=
  if w.kind = .number then (Parse.numberNode w.value).numbers else []

@[simp] theorem Word.numbers_of_ne {w : Word} (h : w.kind ≠ .number) : w.numbers = [] := if_neg h

variable {u v : List Word} {c : Chain} {nodes : List Node}

theorem numbers_of_makesChain (h : MakesChain u c) : u.flatMap Word.numbers = c.numbers := by
  refine @MakesChain.rec (fun u c _ => u.flatMap Word.numbers = c.numbers)
    (fun v more _ => v.flatMap Word.numbers = more.flatMap fun p => p.2.numbers)
    ?negate ?number ?name ?assign ?group ?stop ?more u c h
  case negate =>
    intro w u c hw _ ih
    rw [List.flatMap_cons, Word.numbers_of_ne (by simp [hw]), ih]
    simp [Chain.numbers, Chain.collect, Node.numbers]
  case number =>
    intro w v more hw _ ih
    rw [List.flatMap_cons, Word.numbers, if_pos hw, ih]
    rfl
  case name =>
    intro w v more hw _ ih
    rw [List.flatMap_cons, Word.numbers_of_ne (by simp [hw]), ih]
    simp [Chain.numbers, Chain.collect, Node.numbers]
  case assign =>
    intro w e u c hw he _ ih
    rw [List.flatMap_cons, List.flatMap_cons, Word.numbers_of_ne (by simp [hw]),
      Word.numbers_of_ne (by simp [he]), ih]
    simp [Chain.numbers, Chain.collect, Node.numbers, c.numbers_tree]
  case group =>
    intro l r u v c more hl _ hr _ ih iht
    rw [List.cons_append, List.flatMap_cons, List.flatMap_append, List.flatMap_cons,
      Word.numbers_of_ne (by simp [hl]), Word.numbers_of_ne (by simp [hr]), ih, iht,
      ← c.numbers_tree]
    rfl
  case stop => rfl
  case more =>
    intro w op u c hw _ ih
    have hne : w.kind ≠ .number := by
      rintro hk
      rw [hk] at hw
      cases hw
    rw [List.flatMap_cons, Word.numbers_of_ne hne, ih]
    rfl

/-- **The words of a program make its numbers**, in their order. -/
theorem numbers_of_makesProgram (h : MakesProgram u nodes) :
    u.flatMap Word.numbers = Program.numbers nodes := by
  have tree {u : List Word} {c : Chain} (h : MakesChain u c) :
      u.flatMap Word.numbers = c.tree.numbers := by
    rw [c.numbers_tree, numbers_of_makesChain h]
  refine @MakesProgram.rec (fun u node _ => u.flatMap Word.numbers = node.numbers)
    (fun u nodes _ => u.flatMap Word.numbers = Program.numbers nodes)
    (fun u nodes _ => u.flatMap Word.numbers = Program.numbers nodes)
    ?declare ?initial ?print ?printText ?branch ?branchElse ?bare ?braces ?nil ?cons u nodes h
  case declare =>
    intro w n s hw hn hs
    simp [hw, hn, hs, Node.numbers]
  case initial =>
    intro w n e s u c hw hn he h hs
    simp [hw, hn, he, hs, Node.numbers, ← tree h]
  case print =>
    intro w l r s u c hw hl h hr hs
    simp [hw, hl, hr, hs, Node.numbers, ← tree h]
  case printText =>
    intro w l t r s hw hl ht hr hs
    simp [hw, hl, ht, hr, hs, Node.numbers]
  case branch =>
    intro w l r u v c yes hw hl h hr _ ihy
    simp [hw, hl, hr, Node.numbers, ← tree h, ihy]
  case branchElse =>
    intro w l r e u v v' c yes no hw hl h hr _ he _ ihy ihn
    simp [hw, hl, hr, he, Node.numbers, ← tree h, ihy, ihn]
  case bare =>
    intro s u c h hs
    simp [hs, ← tree h]
  case braces =>
    intro l r u nodes hl _ hr ih
    simp [hl, hr, ih]
  case nil => rfl
  case cons =>
    intro u v node nodes _ _ ih ihs
    rw [List.flatMap_append, ih, ihs, Program.numbers]

end IntLang
