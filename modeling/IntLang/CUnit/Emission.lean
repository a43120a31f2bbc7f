import IntLang.Node
import IntLang.CUnit.Name

/-!
# C translation units

A program becomes one C function `main`. Expressions are written with all their parentheses, a
statement is one line, and the lines of a block are indented by four blanks.

* `CUnit.expression`, `CUnit.statement` and `CUnit.body` write the parts;
* `CUnit.ofProgram` is the whole unit, or the first node that stands where C has no rule for it.
-/

namespace IntLang

/-- A node out of place: no rule writes it there. -/
structure NoRule where
  node : Node
  deriving Repr

def NoRule.message (e : NoRule) : String :=
  "Internal error: no emission rule for node " ++ e.node.json.compact

namespace CUnit

/-! ## Expressions -/

def expression : Node → Except NoRule UnitText
  | .number value => .ok (toString value)
  | .var name => .ok (cName name)
  | .assign name value => do return "(" ++ cName name ++ " = " ++ (← expression value) ++ ")"
  | .negate operand => do return "(-" ++ (← expression operand) ++ ")"
  | .binary op left right => do
    return "(" ++ (← expression left) ++ " " ++ op.text ++ " " ++ (← expression right) ++ ")"
  | node => .error ⟨node⟩

/-! ## Statements -/

/-- A line one block further in. -/
def indent (line : UnitText) : UnitText := "    " ++ line

mutual

def statement : Node → Except NoRule (List UnitText)
  | .declare name none => .ok ["int " ++ cName name ++ ";"]
  | .declare name (some initial) => do
    return ["int " ++ cName name ++ " = " ++ (← expression initial) ++ ";"]
  | .print value => do return ["printf(\"%d\\n\", " ++ (← expression value) ++ ");"]
  | .printText text => .ok ["printf(\"%s\\n\", " ++ text ++ ");"]
  | .branch condition yes none => do
    let opening := "if (" ++ (← expression condition) ++ ") \x7b"
    let yes ← body yes
    return opening :: yes.map indent ++ [Text.units "\x7d"]
  | .branch condition yes (some no) => do
    let opening := "if (" ++ (← expression condition) ++ ") \x7b"
    let yes ← body yes
    let no ← body no
    return opening :: yes.map indent ++ Text.units "\x7d else \x7b" :: no.map indent ++ [Text.units "\x7d"]
  | .block statements => .error ⟨.block statements⟩
  | .unknown content => .error ⟨.unknown content⟩
  | e => do return [(← expression e) ++ ";"]

/-- The lines of statements in a row. -/
def body : List Node → Except NoRule (List UnitText)
  | [] => .ok []
  | node :: nodes => do
    let lines ← statement node
    return lines ++ (← body nodes)

end

/-! ## Units -/

/-- The lines of a unit whose function has the given lines. -/
def frame (lines : List UnitText) : List UnitText :=
  ["#include <stdio.h>", "#include <stdlib.h>", "", "int main() \x7b"].map Text.units ++
    lines.map indent ++ [indent "return 0;", "\x7d"]

/-- Lines as text, each with its line feed. -/
def text (lines : List UnitText) : UnitText := lines.flatMap (· ++ [unit '\n'])

def ofProgram (program : Program) : Except NoRule UnitText := do
  return text (frame (← body program))

end CUnit

end IntLang
