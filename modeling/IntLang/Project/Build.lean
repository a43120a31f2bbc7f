import IntLang.Project.Workspace

/-!
# Building and running

* `Project.load` finds and compiles the source of a project; it changes nothing;
* `Project.compileExecutable` writes the C text and has it compiled, `Project.execute` runs the
  program then;
* `Project.tree`, `Project.emit`, `Project.build` and `Project.run` are the commands on a project.
-/

namespace IntLang

/-- What to do with a C text: where it goes, under which name, and how it is compiled. -/
structure Job where
  out : Path
  name : UnitText
  compiler : UnitText
  flags : List UnitText
  deriving DecidableEq, Repr

def Config.job (c : Config) : Job := ⟨c.out, c.name, c.compiler, c.flags⟩

namespace Job

def artifacts (job : Job) : Artifacts :=
  ⟨job.out.join (job.name ++ Text.units ".c"), job.out.join job.name⟩

/-- The call of the compiler. -/
def call (job : Job) : List UnitText :=
  job.compiler :: job.flags ++
    [job.artifacts.code.units, Text.units "-o", job.artifacts.executable.units]

end Job

namespace Project

/-! ## Loading -/

/-- The configuration of the project in a directory and the compilation of its source. -/
def load (files : FileTree) (dir : Path) (file : Option String) :
    Except Failure (Config × Compilation) := do
  let config ← (Config.load files dir file).mapError .config
  unless files.exists config.entry do throw (.config (.sourceNotFound config.entry))
  let source ← (files.read config.entry).mapError .file
  let compilation ← (compile (Text.units source) .empty).1.mapError .ofCompile
  return (config, compilation)

/-! ## Tools -/

/-- Writes the C text and has it compiled beside itself. -/
def compileExecutable (code : String) (job : Job) : Command Artifacts := do
  unless (← Command.files).exists job.out do
    Command.makeDirs job.out.segments
  Command.write job.artifacts.code code
  let result ← Command.start job.call
  if result.exitCode ≠ some 0 then throw (.tool (.compiler job.artifacts.code result.err))
  return job.artifacts

/-- Compiles and runs; the result is what the program printed. -/
def execute (code : String) (job : Job) : Command (Artifacts × String) := do
  let artifacts ← compileExecutable code job
  let result ← Command.start [artifacts.executable.units]
  if result.exitCode ≠ some 0 then
    throw (.tool (.program artifacts result.exitCode result.signal result.err))
  return (artifacts, result.out)

/-! ## Commands -/

def loaded (dir : Path) (file : Option String) : Command (Config × Compilation) := do
  Command.lift id (load (← Command.files) dir file)

def printTree (tree : String) : Command Unit := do
  Command.say (·.heading "VISUAL PARSE TREE")
  unless tree = "" do Command.say (·.line tree)
  Command.say (·.rule)

/-- Prints the tree of the source. -/
def tree (dir : Path) (file : Option String) : Command Unit := do
  let (_, compilation) ← loaded dir file
  printTree compilation.treeText

/-- Prints the C text of the source. -/
def emit (dir : Path) (file : Option String) : Command Unit := do
  let (_, compilation) ← loaded dir file
  Command.say (·.write compilation.codeText)

/-- Compiles the source to a program, and says how long it took. -/
def build (dir : Path) (file : Option String) : Command Artifacts := do
  let (config, compilation) ← loaded dir file
  let artifacts ← compileExecutable compilation.codeText config.job
  Command.say (·.ok "C generated " artifacts.code.text)
  Command.say (·.ok "executable  " artifacts.executable.text)
  let elapsed := (← Command.shell).elapsed
  Command.say (·.line ("\nBuild completed in " ++ toString elapsed ++ "ms"))
  return artifacts

/-- Compiles the source and runs the program; keeps what it printed beside it. -/
def run (dir : Path) (file : Option String) : Command (Artifacts × String) := do
  let (config, compilation) ← loaded dir file
  printTree compilation.treeText
  let (artifacts, output) ← execute compilation.codeText config.job
  let result := config.out.join "result.txt"
  Command.write result output
  Command.say (·.heading "EXECUTION RESULTS")
  Command.say (·.write output)
  Command.say (·.line ("\n(Output saved to '" ++ result.text ++ "')"))
  Command.say (·.rule)
  return (artifacts, output)

end Project

end IntLang
