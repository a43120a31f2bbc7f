import IntLang.Parse.Statement
import IntLang.Drawing
import IntLang.CUnit.Emission

/-!
# Compilations

* `compile` takes a source to its program, the names in scope, the drawing and the C text, or to
  the first error;
* `attempt` compiles a source in an empty scope and takes an error of the source as a result;
* `session` compiles sources one after another in one scope, which a failed source still extends
  by what it declared before it failed.
-/

namespace IntLang

structure Compilation where
  program : Program
  symbols : List UnitText
  tree : UnitText
  code : UnitText
  deriving Repr

namespace Compilation

/-- The drawing as it is printed. -/
def treeText (c : Compilation) : String := Text.ofUnits c.tree

/-- The unit as it is printed and written. -/
def codeText (c : Compilation) : String := Text.ofUnits c.code

end Compilation

inductive CompileFailure where
  | source (e : CompileError)
  | noRule (e : NoRule)
  deriving Repr

/-- What a program that was read becomes, with the scope behind it. -/
def Compilation.ofProgram (program : Program) (scope : Scope) : Except CompileFailure Compilation :=
  match CUnit.ofProgram program with
  | .ok code => .ok ⟨program, scope.names, program.draw, code⟩
  | .error e => .error (.noRule e)

def compile (source : UnitText) (scope : Scope) : Except CompileFailure Compilation × Scope :=
  match parse (.ofText source) scope with
  | (.ok program, scope') => (Compilation.ofProgram program scope', scope')
  | (.error e, scope') => (.error (.source e), scope')

/-- Errors of the source are results; only a node without a rule gets through. -/
def attempt (source : UnitText) : Except NoRule (Except CompileError Compilation) :=
  match (compile source .empty).1 with
  | .ok c => .ok (.ok c)
  | .error (.source e) => .ok (.error e)
  | .error (.noRule e) => .error e

/-- Each result comes with the scope behind it. -/
def session : List UnitText → Scope → List (Except CompileFailure Compilation × Scope)
  | [], _ => []
  | source :: sources, scope =>
    let step := compile source scope
    step :: session sources step.2

end IntLang
