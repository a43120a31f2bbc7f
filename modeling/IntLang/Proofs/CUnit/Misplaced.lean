import IntLang.CUnit.Emission

/-!
# Nodes out of place

A tree may have a block for a statement, a statement for an operand, or a node of no known kind. The first
such node in the order of the source is the one that no rule writes.

* `Node.fits`: what may stand in a place;
* `Program.places`: all nodes of a program with their places, in the order of the source;
* `Reports`: a part is written if all its nodes are in place, and else its first misplaced node is the error;
* `Reports.bind`: parts that are written one behind the other;
* `body_append`: statements in a row;
* **`ofProgram_reports`**: a whole unit.
-/

namespace IntLang

/-! ## Places -/

/-- Where a node may stand. -/
inductive Place where
  | statement | expression
  deriving DecidableEq, Repr

namespace Node

/-- A block or a node of no known kind stands nowhere, and a statement only where one belongs. -/
def fits : Place → Node → Bool
  | _, number _ | _, var _ | _, assign _ _ | _, negate _ | _, binary _ _ _ => true
  | .statement, declare _ _ | .statement, print _ | .statement, printText _ => true
  | .statement, branch _ _ _ => true
  | _, _ => false

end Node

mutual

/-- The nodes inside a node with their places, in the order of the source. -/
def Node.inside : Node → List (Place × Node)
  | .number _ | .var _ | .declare _ none | .printText _ | .unknown _ => []
  | .assign _ value | .negate value | .declare _ (some value) | .print value =>
    (.expression, value) :: value.inside
  | .binary _ left right =>
    (.expression, left) :: left.inside ++ (.expression, right) :: right.inside
  | .branch condition yes none => (.expression, condition) :: condition.inside ++ Program.places yes
  | .branch condition yes (some no) =>
    (.expression, condition) :: condition.inside ++ (Program.places yes ++ Program.places no)
  | .block statements => Program.places statements

/-- All nodes of a program with their places. -/
def Program.places : List Node → List (Place × Node)
  | [] => []
  | node :: nodes => (.statement, node) :: node.inside ++ Program.places nodes

end

/-! ## The first misplaced node -/

/-- Each node may stand where it does. -/
def InPlace (places : List (Place × Node)) : Prop := ∀ p ∈ places, p.2.fits p.1 = true

/-- The first node that may not stand where it does. -/
def FirstMisplaced (places : List (Place × Node)) (node : Node) : Prop :=
  ∃ front place back, places = front ++ (place, node) :: back ∧ InPlace front ∧
    node.fits place = false

theorem not_inPlace {places : List (Place × Node)} {place : Place} {node : Node}
    (hm : (place, node) ∈ places) (hn : node.fits place = false) : ¬ InPlace places := by
  intro h
  have hp := h (place, node) hm
  rw [hn] at hp
  cases hp

theorem FirstMisplaced.exists_mem {places : List (Place × Node)} {node : Node}
    (h : FirstMisplaced places node) :
    ∃ place, (place, node) ∈ places ∧ node.fits place = false := by
  obtain ⟨front, place, back, rfl, -, hn⟩ := h
  exact ⟨place, by simp, hn⟩

theorem FirstMisplaced.find?_eq {places : List (Place × Node)} {node : Node}
    (h : FirstMisplaced places node) :
    (places.find? fun p => !p.2.fits p.1).map (·.2) = some node := by
  obtain ⟨front, place, back, rfl, hf, hn⟩ := h
  have none : front.find? (fun p => !p.2.fits p.1) = none :=
    List.find?_eq_none.mpr fun p hp => by simp [hf p hp]
  simp [List.find?_append, none, hn]

namespace CUnit

variable {α β : Type}

/-- A result if all nodes are in place, and else the first that is not. -/
def Reports (places : List (Place × Node)) : Except NoRule α → Prop
  | .ok _ => InPlace places
  | .error e => FirstMisplaced places e.node

namespace Reports

variable {places more : List (Place × Node)} {place : Place} {node : Node}

theorem pure (a : α) : Reports [] (.ok a : Except NoRule α) := nofun

/-- A misplaced node is reported, whatever is inside it. -/
theorem here (h : node.fits place = false) :
    Reports ((place, node) :: places) (.error ⟨node⟩ : Except NoRule α) :=
  ⟨[], place, places, rfl, nofun, h⟩

theorem cons {r : Except NoRule α} (h : node.fits place = true) (hr : Reports places r) :
    Reports ((place, node) :: places) r := by
  cases r with
  | ok a => exact List.forall_mem_cons.mpr ⟨h, hr⟩
  | error e =>
    obtain ⟨front, p, back, rfl, hf, hn⟩ := hr
    exact ⟨(place, node) :: front, p, back, rfl, List.forall_mem_cons.mpr ⟨h, hf⟩, hn⟩

theorem of_cons {r : Except NoRule α} (h : node.fits place = true)
    (hr : Reports ((place, node) :: places) r) : Reports places r := by
  cases r with
  | ok a => exact (List.forall_mem_cons.mp hr).2
  | error e =>
    obtain ⟨_ | ⟨first, front⟩, p, back, he, hf, hn⟩ := hr
    · cases he
      rw [h] at hn
      cases hn
    · cases he
      exact ⟨front, p, back, rfl, (List.forall_mem_cons.mp hf).2, hn⟩

/-- **Parts one behind the other.** The second is only written behind the first. -/
theorem bind {r : Except NoRule α} {f : α → Except NoRule β} (hr : Reports places r)
    (hf : ∀ a, Reports more (f a)) : Reports (places ++ more) (r >>= f) := by
  cases r with
  | ok a =>
    change Reports _ (f a)
    have hf := hf a
    cases hb : f a with
    | ok b =>
      rw [hb] at hf
      exact List.forall_mem_append.mpr ⟨hr, hf⟩
    | error e =>
      rw [hb] at hf
      obtain ⟨front, p, back, rfl, hfront, hn⟩ := hf
      refine ⟨places ++ front, p, back, (List.append_assoc _ _ _).symm, ?_, hn⟩
      exact List.forall_mem_append.mpr ⟨hr, hfront⟩
  | error e =>
    obtain ⟨front, p, back, rfl, hfront, hn⟩ := hr
    exact ⟨front, p, back ++ more, by simp, hfront, hn⟩

/-- What is made of a result does not change the report. -/
theorem map {r : Except NoRule α} (hr : Reports places r) (f : α → β) :
    Reports places (r >>= fun a => .ok (f a)) := by
  have h := hr.bind fun a => Reports.pure (f a)
  rwa [List.append_nil] at h

/-- An error is the first misplaced node, and the other way round. -/
theorem eq_error_iff {r : Except NoRule α} (hr : Reports places r) :
    r = .error ⟨node⟩ ↔ FirstMisplaced places node := by
  constructor
  · rintro rfl
    exact hr
  · intro hn
    cases r with
    | ok a =>
      obtain ⟨place, hm, hfit⟩ := hn.exists_mem
      exact absurd hr (not_inPlace hm hfit)
    | error e =>
      have he : some e.node = some node := hr.find?_eq.symm.trans hn.find?_eq
      rw [← Option.some.inj he]

theorem exists_error_iff {r : Except NoRule α} (hr : Reports places r) :
    (∃ e, r = .error e) ↔ ∃ place node, (place, node) ∈ places ∧ node.fits place = false := by
  constructor
  · rintro ⟨e, rfl⟩
    obtain ⟨place, hm⟩ := FirstMisplaced.exists_mem hr
    exact ⟨place, e.node, hm⟩
  · rintro ⟨place, node, hm, hfit⟩
    cases r with
    | ok a => exact absurd hr (not_inPlace hm hfit)
    | error e => exact ⟨e, rfl⟩

end Reports

/-! ## Writing -/

theorem reports_expression : ∀ node : Node,
    Reports ((.expression, node) :: node.inside) (expression node)
  | .number _ | .var _ => .cons rfl (.pure _)
  | .assign _ value | .negate value => by
    rw [expression]
    exact .cons rfl ((reports_expression value).map _)
  | .binary _ left right => by
    rw [expression]
    exact .cons rfl ((reports_expression left).bind fun _ => (reports_expression right).map _)
  | .declare _ _ | .print _ | .printText _ | .branch _ _ _ | .block _ | .unknown _ => .here rfl

/-- An expression may stand for a statement. -/
theorem reports_bare {node : Node} (he : node.fits .expression = true)
    (hs : node.fits .statement = true) :
    Reports ((.statement, node) :: node.inside)
      (expression node >>= fun text => .ok [text ++ ";"]) :=
  .cons hs (((reports_expression node).of_cons he).map _)

mutual

theorem reports_statement : ∀ node : Node,
    Reports ((.statement, node) :: node.inside) (statement node)
  | .number _ | .var _ | .assign _ _ | .negate _ | .binary _ _ _ => by
    rw [statement]
    · exact reports_bare rfl rfl
    all_goals nofun
  | .declare _ none | .printText _ => .cons rfl (.pure _)
  | .declare _ (some value) | .print value => by
    rw [statement]
    exact .cons rfl ((reports_expression value).map _)
  | .branch condition yes none => by
    rw [statement]
    exact .cons rfl ((reports_expression condition).bind fun _ => (reports_body yes).map _)
  | .branch condition yes (some no) => by
    rw [statement]
    exact .cons rfl ((reports_expression condition).bind fun _ =>
      (reports_body yes).bind fun _ => (reports_body no).map _)
  | .block _ | .unknown _ => .here rfl

theorem reports_body : ∀ nodes : List Node, Reports (Program.places nodes) (body nodes)
  | [] => .pure _
  | node :: nodes => by
    rw [body, Program.places]
    exact (reports_statement node).bind fun _ => (reports_body nodes).map _

end

/-! ## Units -/

theorem body_eq_mapM (nodes : List Node) :
    body nodes = nodes.mapM statement >>= fun lines => .ok lines.flatten := by
  induction nodes with
  | nil => rfl
  | cons node nodes ih =>
    rw [body, ih, List.mapM_cons]
    cases statement node with
    | error e => rfl
    | ok lines => cases nodes.mapM statement <;> rfl

theorem body_append (nodes nodes' : List Node) :
    body (nodes ++ nodes') = do return (← body nodes) ++ (← body nodes') := by
  simp only [body_eq_mapM, List.mapM_append]
  cases nodes.mapM statement with
  | error e => rfl
  | ok lines =>
    cases nodes'.mapM statement with
    | error e => rfl
    | ok lines' => exact congrArg Except.ok List.flatten_append

/-- **A unit is written just when every node is in its place.** Otherwise the error is the first node in the
order of the source that is not. A unit that is written holds the lines of all statements. -/
theorem ofProgram_reports (program : Program) :
    ((∃ e, ofProgram program = .error e) ↔
      ∃ place node, (place, node) ∈ Program.places program ∧ node.fits place = false) ∧
    (∀ node, ofProgram program = .error ⟨node⟩ ↔ FirstMisplaced (Program.places program) node) ∧
    (InPlace (Program.places program) → ∃ lines, program.mapM statement = .ok lines ∧
      ofProgram program = .ok (text (frame lines.flatten))) := by
  have reports : Reports (Program.places program) (ofProgram program) :=
    (reports_body program).map fun lines => text (frame lines)
  refine ⟨reports.exists_error_iff, fun node => reports.eq_error_iff, fun h => ?_⟩
  rw [ofProgram, body_eq_mapM] at reports ⊢
  cases hl : program.mapM statement with
  | ok lines => exact ⟨lines, rfl, rfl⟩
  | error e =>
    rw [hl] at reports
    obtain ⟨place, hm, hfit⟩ := FirstMisplaced.exists_mem reports
    exact absurd h (not_inPlace hm hfit)

end CUnit

end IntLang
