import IntLang.Proofs.CUnit.Misplaced

/-!
# Lines by depth

A unit may as well be written on one sheet, line after line, by a writer that only keeps count of the
blocks that are open: each line goes behind four blanks for each of them. This comes to the same lines as
those of its parts put together.

* `Sheet`, `Writer`: the sheet with its count, and what is written on it;
* `Writes`: a writer adds certain lines and leaves the count as it was; one lemma for each part;
* `writes_body`: writing statements is such a part, at any depth;
* `Laid`: each line of a text stands as far in as blocks are open in front of it;
* `Gives`: what is written has a property; `laidOut_body`: the lines of statements are laid out;
* **`writeUnit_composes`**: the writer and the lines of the parts.
-/

namespace IntLang.CUnit

/-! ## Sheets -/

/-- Four blanks for each open block. -/
def blanks (depth : Nat) : UnitText := List.replicate (4 * depth) (unit ' ')

/-- The lines written so far, and the number of blocks open behind them. -/
structure Sheet where
  lines : List UnitText
  depth : Nat
  deriving DecidableEq, Repr

namespace Sheet

def blank : Sheet := ⟨[], 0⟩

/-- The sheet with some lines more, all at its depth. -/
def add (sheet : Sheet) (lines : List UnitText) : Sheet :=
  { sheet with lines := sheet.lines ++ lines.map (blanks sheet.depth ++ ·) }

end Sheet

abbrev Writer := StateT Sheet (Except NoRule)

/-- One line at the depth of the sheet. -/
def emit (line : UnitText) : Writer Unit := modify (·.add [line])

def openBlock : Writer Unit := modify fun sheet => { sheet with depth := sheet.depth + 1 }

def closeBlock : Writer Unit := modify fun sheet => { sheet with depth := sheet.depth - 1 }

mutual

def writeStatement : Node → Writer Unit
  | .declare name none => emit ("int " ++ cName name ++ ";")
  | .declare name (some initial) => do
    emit ("int " ++ cName name ++ " = " ++ (← expression initial) ++ ";")
  | .print value => do emit ("printf(\"%d\\n\", " ++ (← expression value) ++ ");")
  | .printText text => emit ("printf(\"%s\\n\", " ++ text ++ ");")
  | .branch condition yes none => do
    emit ("if (" ++ (← expression condition) ++ ") \x7b")
    openBlock
    writeBody yes
    closeBlock
    emit "\x7d"
  | .branch condition yes (some no) => do
    emit ("if (" ++ (← expression condition) ++ ") \x7b")
    openBlock
    writeBody yes
    closeBlock
    emit "\x7d else \x7b"
    openBlock
    writeBody no
    closeBlock
    emit "\x7d"
  | .block statements => throw ⟨.block statements⟩
  | .unknown content => throw ⟨.unknown content⟩
  | e => do emit ((← expression e) ++ ";")

def writeBody : List Node → Writer Unit
  | [] => return
  | node :: nodes => do
    writeStatement node
    writeBody nodes

end

def writeUnit (program : Program) : Writer Unit := do
  emit "#include <stdio.h>"
  emit "#include <stdlib.h>"
  emit ""
  emit "int main() \x7b"
  openBlock
  writeBody program
  emit "return 0;"
  closeBlock
  emit "\x7d"

/-! ## Parts of a sheet -/

theorem blanks_zero : blanks 0 = [] := rfl

theorem blanks_succ (depth : Nat) (line : UnitText) :
    blanks (depth + 1) ++ line = blanks depth ++ indent line := by
  have four : blanks (depth + 1) = blanks depth ++ "    " := by
    rw [blanks, Nat.mul_succ, ← List.replicate_append_replicate]
    rfl
  rw [four, List.append_assoc, indent]

theorem map_indent_blanks (lines : List UnitText) (depth : Nat) :
    (lines.map indent).map (blanks depth ++ ·) = lines.map (blanks (depth + 1) ++ ·) := by
  rw [List.map_map]
  exact List.map_congr_left fun line _ => (blanks_succ depth line).symm

/-- The writer adds the lines of a result at the depth of the sheet and leaves it at that depth, or fails
as the result does. -/
def Writes (x : Writer Unit) (result : Except NoRule (List UnitText)) : Prop :=
  ∀ sheet : Sheet, x.run sheet = result.map fun lines => ((), sheet.add lines)

namespace Writes

variable {x y : Writer Unit} {result more : Except NoRule (List UnitText)}

theorem of_eq (h : result = more) (hx : Writes x result) : Writes x more := h ▸ hx

theorem single (line : UnitText) : Writes (emit line) (.ok [line]) := fun _ => rfl

theorem nothing : Writes (pure ()) (.ok []) := by
  intro sheet
  have none : sheet.add [] = sheet := by
    rw [Sheet.add, List.map_nil, List.append_nil]
  exact congrArg (fun s => Except.ok ((), s)) none.symm

theorem fail (e : NoRule) : Writes (throw e) (.error e) := fun _ => rfl

/-- Parts one behind the other. -/
theorem seq (hx : Writes x result) (hy : Writes y more) :
    Writes (do x; y) (do return (← result) ++ (← more)) := by
  intro sheet
  rw [StateT.run_bind, hx]
  cases result with
  | error e => rfl
  | ok lines =>
    change y.run (sheet.add lines) = _
    rw [hy]
    cases more with
    | error e => rfl
    | ok lines' =>
      have both : (sheet.add lines).add lines' = sheet.add (lines ++ lines') := by
        simp only [Sheet.add, List.map_append, List.append_assoc]
      exact congrArg (fun s => Except.ok ((), s)) both

/-- **A block and what stands behind it.** The lines of the block stand one level further in. -/
theorem block (hx : Writes x result) (hy : Writes y more) :
    Writes (do openBlock; x; closeBlock; y) (do return (← result).map indent ++ (← more)) := by
  intro sheet
  have opened : (do openBlock; x; closeBlock; y : Writer Unit).run sheet =
      (do x; closeBlock; y : Writer Unit).run ⟨sheet.lines, sheet.depth + 1⟩ := rfl
  rw [opened, StateT.run_bind, hx]
  cases result with
  | error e => rfl
  | ok lines =>
    have closed : (do closeBlock; y : Writer Unit).run
        ((⟨sheet.lines, sheet.depth + 1⟩ : Sheet).add lines) = y.run (sheet.add (lines.map indent)) := by
      rw [Sheet.add, Sheet.add, map_indent_blanks]
      rfl
    refine closed.trans ?_
    rw [hy]
    cases more with
    | error e => rfl
    | ok lines' =>
      have both : (sheet.add (lines.map indent)).add lines' =
          sheet.add (lines.map indent ++ lines') := by
        simp only [Sheet.add, List.map_append, List.append_assoc]
      exact congrArg (fun s => Except.ok ((), s)) both

/-- A part that quotes an expression. -/
theorem quoting {text : Except NoRule UnitText} {f : UnitText → Writer Unit}
    {g : UnitText → Except NoRule (List UnitText)} (h : ∀ t, Writes (f t) (g t)) :
    Writes (do f (← text)) (text >>= g) := by
  intro sheet
  cases text with
  | error e => rfl
  | ok t => exact h t sheet

end Writes

/-! ## Statements -/

mutual

theorem writes_statement : ∀ node : Node, Writes (writeStatement node) (statement node)
  | .number _ | .var _ | .assign _ _ | .negate _ | .binary _ _ _ => by
    rw [writeStatement, statement]
    · exact .quoting fun _ => .single _
    all_goals nofun
  | .declare _ none | .printText _ => .single _
  | .declare _ (some _) | .print _ => by
    rw [writeStatement, statement]
    exact .quoting fun _ => .single _
  | .branch _ yes none => by
    rw [writeStatement, statement]
    refine .quoting fun _ => .of_eq ?_ (.seq (.single _) ((writes_body yes).block (.single _)))
    cases body yes <;> rfl
  | .branch _ yes (some no) => by
    rw [writeStatement, statement]
    refine .quoting fun _ => .of_eq ?_ (.seq (.single _) ((writes_body yes).block
      (.seq (.single _) ((writes_body no).block (.single _)))))
    cases body yes with
    | error e => rfl
    | ok lines =>
      cases body no with
      | error e => rfl
      | ok lines' => exact congrArg Except.ok (by simp)
  | .block _ | .unknown _ => .fail _

theorem writes_body : ∀ nodes : List Node, Writes (writeBody nodes) (body nodes)
  | [] => .nothing
  | node :: nodes => by
    rw [writeBody, body]
    exact (writes_statement node).seq (writes_body nodes)

end

/-- **The whole sheet.** Every block is closed at its end. -/
theorem run_writeUnit (program : Program) : (writeUnit program).run .blank =
    (body program).map fun lines => ((), ⟨frame lines, 0⟩) := by
  have inner := (writes_body program).seq (.single "return 0;")
  have parts := (Writes.single "#include <stdio.h>").seq ((Writes.single "#include <stdlib.h>").seq
    ((Writes.single "").seq ((Writes.single "int main() \x7b").seq (inner.block (.single "\x7d")))))
  simp only [bind_assoc] at parts
  refine (parts .blank).trans ?_
  cases body program with
  | error e => rfl
  | ok lines =>
    refine congrArg (fun lines => Except.ok ((), (⟨lines, 0⟩ : Sheet))) ?_
    simp [Sheet.blank, frame, blanks_zero]

/-! ## Branches -/

/-- The lines of a branch: those of its blocks stand one level further in. -/
def branchLines (test : UnitText) (yes : List UnitText) (no : Option (List UnitText)) : List UnitText :=
  ("if (" ++ test ++ ") \x7b") :: yes.map indent ++
    (match no with
      | none => []
      | some no => Text.units "\x7d else \x7b" :: no.map indent) ++ [Text.units "\x7d"]

theorem statement_branch (condition : Node) (yes : List Node) (no : Option (List Node)) :
    statement (.branch condition yes no) = do
      return branchLines (← expression condition) (← body yes) (← no.mapM body) := by
  cases no with
  | none =>
    rw [statement]
    cases expression condition with
    | error e => rfl
    | ok test =>
      cases body yes with
      | error e => rfl
      | ok lines =>
        have layout : ("if (" ++ test ++ ") \x7b") :: lines.map indent ++ [Text.units "\x7d"] =
            branchLines test lines none := by simp [branchLines]
        exact congrArg Except.ok layout
  | some no =>
    rw [statement, Option.mapM_some]
    cases expression condition with
    | error e => rfl
    | ok test =>
      cases body yes with
      | error e => rfl
      | ok lines =>
        cases body no with
        | error e => rfl
        | ok lines' =>
          have layout : ("if (" ++ test ++ ") \x7b") :: lines.map indent ++
              Text.units "\x7d else \x7b" :: lines'.map indent ++ [Text.units "\x7d"] =
              branchLines test lines (some lines') := by simp [branchLines]
          exact congrArg Except.ok layout

theorem body_singleton (node : Node) : body [node] = statement node := by
  rw [body, body]
  cases statement node with
  | error e => rfl
  | ok lines => exact congrArg Except.ok (List.append_nil lines)

/-! ## Depths -/

/-- Each line stands behind four blanks for each block that is open there: `depth` blocks in front of the
lines, and `rest` behind them. -/
inductive Laid : Nat → List UnitText → Nat → Prop
  | nil (depth : Nat) : Laid depth [] depth
  | single {depth rest : Nat} {node : Node} {line : UnitText} {lines : List UnitText}
    (h : statement node = .ok [line]) (hs : Laid depth lines rest) :
    Laid depth ((blanks depth ++ line) :: lines) rest
  | opening {depth rest : Nat} {condition : Node} {test : UnitText} {lines : List UnitText}
    (h : expression condition = .ok test) (hs : Laid (depth + 1) lines rest) :
    Laid depth ((blanks depth ++ ("if (" ++ test ++ ") \x7b")) :: lines) rest
  | turning {depth rest : Nat} {lines : List UnitText} (hs : Laid (depth + 1) lines rest) :
    Laid (depth + 1) ((blanks depth ++ "\x7d else \x7b") :: lines) rest
  | closing {depth rest : Nat} {lines : List UnitText} (hs : Laid depth lines rest) :
    Laid (depth + 1) ((blanks depth ++ "\x7d") :: lines) rest

namespace Laid

variable {depth rest behind : Nat} {lines more : List UnitText}

theorem append (h : Laid depth lines rest) (hs : Laid rest more behind) :
    Laid depth (lines ++ more) behind := by
  induction h with
  | nil => exact hs
  | single h _ ih => exact .single h (ih hs)
  | opening h _ ih => exact .opening h (ih hs)
  | turning _ ih => exact .turning (ih hs)
  | closing _ ih => exact .closing (ih hs)

end Laid

section Gives

variable {α β : Type} {P : α → Prop} {Q : β → Prop}

/-- The result has a property, if there is one. -/
def Gives (P : α → Prop) (r : Except NoRule α) : Prop := ∀ a, r = .ok a → P a

theorem Gives.ok {a : α} (h : P a) : Gives P (.ok a) := by
  rintro _ ⟨⟩
  exact h

theorem Gives.error {e : NoRule} : Gives P (.error e) := nofun

theorem Gives.any {r : Except NoRule α} : Gives (fun _ => True) r := fun _ _ => trivial

theorem Gives.bind {r : Except NoRule α} {f : α → Except NoRule β} (h : Gives P r)
    (hf : ∀ a, r = .ok a → P a → Gives Q (f a)) : Gives Q (r >>= f) := by
  cases r with
  | error e => exact .error
  | ok a => exact hf a rfl (h a rfl)

end Gives

/-- The lines are laid out at every depth. -/
def LaidOut (lines : List UnitText) : Prop := ∀ depth, Laid depth (lines.map (blanks depth ++ ·)) depth

namespace LaidOut

variable {lines more : List UnitText}

theorem nil : LaidOut [] := Laid.nil

theorem append (h : LaidOut lines) (hs : LaidOut more) : LaidOut (lines ++ more) := by
  intro depth
  rw [List.map_append]
  exact (h depth).append (hs depth)

theorem single {node : Node} {line : UnitText} (h : statement node = .ok [line]) : LaidOut [line] :=
  fun depth => .single h (.nil depth)

/-- The lines of a block, further in. -/
theorem further (h : LaidOut lines) (depth : Nat) :
    Laid (depth + 1) ((lines.map indent).map (blanks depth ++ ·)) (depth + 1) := by
  rw [map_indent_blanks]
  exact h (depth + 1)

/-- **A branch is laid out if its blocks are.** -/
theorem branch {condition : Node} {test : UnitText} {yes : List UnitText} {no : Option (List UnitText)}
    (h : expression condition = .ok test) (hy : LaidOut yes) (hn : ∀ lines ∈ no, LaidOut lines) :
    LaidOut (branchLines test yes no) := by
  intro depth
  have close : Laid (depth + 1) [blanks depth ++ "\x7d"] depth := .closing (.nil depth)
  cases no with
  | none =>
    simp only [branchLines, List.map_append, List.map_cons, List.map_nil, List.append_nil]
    exact .opening h ((hy.further depth).append close)
  | some no =>
    simp only [branchLines, List.map_append, List.map_cons, List.map_nil, List.append_assoc,
      List.cons_append]
    exact .opening h ((hy.further depth).append (.turning (((hn no rfl).further depth).append close)))

/-- A line that quotes an expression. -/
theorem quoting {node : Node} (e : Node) (f : UnitText → UnitText)
    (hs : statement node = do return [f (← expression e)]) : Gives LaidOut (statement node) := by
  intro lines h
  have written := h
  rw [hs] at h
  cases he : expression e with
  | error e =>
    rw [he] at h
    cases h
  | ok text =>
    rw [he] at h
    cases h
    exact .single written

end LaidOut

/-- An expression that stands for a statement is its text with a semicolon. -/
theorem statement_of_fits {e : Node} (h : e.fits .expression = true) :
    statement e = do return [(← expression e) ++ ";"] := by
  cases e <;> first | rfl | cases h

mutual

theorem laidOut_statement : ∀ node : Node, Gives LaidOut (statement node)
  | .number _ | .var _ | .assign _ _ | .negate _ | .binary _ _ _ =>
    .quoting _ (· ++ ";") (statement_of_fits rfl)
  | .declare name none => .ok (.single (show statement (.declare name none) = _ from rfl))
  | .printText text => .ok (.single (show statement (.printText text) = _ from rfl))
  | .declare name (some e) => .quoting e ("int " ++ cName name ++ " = " ++ · ++ ";") (by rw [statement])
  | .print e => .quoting e ("printf(\"%d\\n\", " ++ · ++ ");") (by rw [statement])
  | .branch condition yes none => by
    rw [statement_branch]
    refine Gives.any.bind fun test ht _ => ?_
    exact (laidOut_body yes).bind fun lines _ hy => .ok (.branch ht hy nofun)
  | .branch condition yes (some no) => by
    rw [statement_branch, Option.mapM_some]
    refine Gives.any.bind fun test ht _ => (laidOut_body yes).bind fun lines _ hy => ?_
    rw [bind_map_left]
    refine (laidOut_body no).bind fun lines' _ hn => .ok (.branch ht hy ?_)
    rintro _ ⟨⟩
    exact hn
  | .block _ | .unknown _ => nofun

theorem laidOut_body : ∀ nodes : List Node, Gives LaidOut (body nodes)
  | [] => .ok .nil
  | node :: nodes => by
    rw [body]
    refine (laidOut_statement node).bind fun first _ hf => ?_
    exact (laidOut_body nodes).bind fun more _ hm => .ok (hf.append hm)

end

/-! ## Units -/

/-- **A unit is put together from its parts.** The writer with one sheet and one count writes the unit, and
statements anywhere leave the count as they found it. The lines of statements in a row are those of the
first ones and then those of the others; a branch is its opening line, its blocks one level further in, and
its closing line. If every node is in place, there are such lines, and each stands as far in as blocks are
open in front of it. -/
theorem writeUnit_composes :
    (∀ program : Program,
      (writeUnit program).run .blank = (body program).map (fun lines => ((), ⟨frame lines, 0⟩)) ∧
      ofProgram program = (body program).map (fun lines => text (frame lines))) ∧
    (∀ nodes : List Node, Writes (writeBody nodes) (body nodes)) ∧
    (∀ nodes nodes' : List Node, body (nodes ++ nodes') = do return (← body nodes) ++ (← body nodes')) ∧
    (∀ (condition : Node) (yes : List Node) (no : Option (List Node)),
      body [.branch condition yes no] = do
        return branchLines (← expression condition) (← body yes) (← no.mapM body)) ∧
    ∀ program : Program, InPlace (Program.places program) →
      ∃ lines, body program = .ok lines ∧ LaidOut lines := by
  refine ⟨fun program => ⟨run_writeUnit program, ?_⟩, writes_body, body_append, ?_, ?_⟩
  · rw [ofProgram]
    cases body program <;> rfl
  · intro condition yes no
    rw [body_singleton, statement_branch]
  · intro program placed
    have reports := reports_body program
    cases hb : body program with
    | ok lines => exact ⟨lines, rfl, laidOut_body program lines hb⟩
    | error e =>
      rw [hb] at reports
      obtain ⟨place, hm, hn⟩ := FirstMisplaced.exists_mem reports
      exact absurd placed (not_inPlace hm hn)

/-- A branch inside a branch, with a block that is empty. -/
theorem laid_nested_branch :
    InPlace (Program.places
      [.branch (.var "a") [.branch (.number 1) [.print (.var "a")] (some [])] none]) ∧
    Laid 0 ["if (a) \x7b", "    if (1) \x7b", "        printf(\"%d\\n\", a);",
      "    \x7d else \x7b", "    \x7d", "\x7d"] 0 := by
  have placed : InPlace (Program.places
      [.branch (.var "a") [.branch (.number 1) [.print (.var "a")] (some [])] none]) := by
    simp [InPlace, Program.places, Node.inside, Node.fits]
  obtain ⟨lines, hl, laid⟩ := writeUnit_composes.2.2.2.2 _ placed
  refine ⟨placed, ?_⟩
  cases hl
  exact laid 0

end IntLang.CUnit
