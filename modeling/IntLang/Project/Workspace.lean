import IntLang.Compilation
import IntLang.Console
import IntLang.Project.Config

/-!
# Workspaces

A workspace is all that a command works on: the files, the processes it starts, and its console. A
command changes the workspace and may fail; what it did before it failed stays done.

* `Machine` is what the files do not show: places that are refused, and what processes do to files;
* `Shell.start` starts a process: its outcome comes from a script;
* `Failure` sums up why a command fails;
* `Command.makeDirs`, `Command.write`, `Command.start` are the steps that change files.
-/

namespace IntLang

/-! ## Processes -/

/-- How a process ended. There is no exit code where a signal ended it. -/
structure ProcessResult where
  exitCode : Option Int
  out : String
  err : String
  signal : Option String
  deriving DecidableEq, Repr

inductive Outcome where
  | ended (result : ProcessResult)
  | notStarted (message : String)
  deriving DecidableEq, Repr

namespace Outcome

/-- A process that did nothing and succeeded. -/
def success : Outcome := .ended ⟨some 0, "", "", none⟩

/-- A process that was not started leaves its message in place of its own words. -/
def result : Outcome → ProcessResult
  | ended result => result
  | notStarted message => ⟨none, "", message, none⟩

end Outcome

/-! ## Machines -/

/-- What the files of a machine do not show. -/
structure Machine where
  /-- Paths of more names are too long. -/
  deepest : Nat
  /-- Where else nothing can be made or written: a name is too long, there is no room, or it is not allowed. -/
  forbids : List UnitText → Bool
  /-- What a process does to the files, by its call and how it ended. -/
  effect : List UnitText → ProcessResult → FileTree → FileTree
  /-- What the JSON reader says of a file. -/
  words : NoJson → String

namespace Machine

/-- Nothing is refused but what no path can lead to, and processes leave the files alone. -/
def inert : Machine := ⟨2048, fun _ => false, fun _ _ files => files, fun _ => ""⟩

/-- Nothing can be made or written at a place. -/
def refuses (m : Machine) (names : List UnitText) : Bool := m.deepest < names.length || m.forbids names

/-- What a process that was started, or was not, does to the files. -/
def touch (m : Machine) (call : List UnitText) : Outcome → FileTree → FileTree
  | .ended result, files => m.effect call result files
  | .notStarted _, files => files

/-- A file is written where there is room for it, unless the place is refused. -/
def write (m : Machine) (p : Path) (text : String) (files : FileTree) :
    Except FileFault FileTree := do
  let written ← files.write p text
  if m.refuses p.segments then .error .refused else .ok written

/-- How far the directories of a path can be made, if one of them is missing and refused. -/
def barrier? (m : Machine) (names : List UnitText) (files : FileTree) : Option Nat :=
  (List.range names.length).find? fun n =>
    m.refuses (names.take (n + 1)) && (files.find (names.take (n + 1))).toOption.isNone

/-- The directories of a path are made one after another. Those above one that is refused stay. -/
def makeDirs (m : Machine) (names : List UnitText) (files : FileTree) :
    Option FileFault × FileTree :=
  match files.makeDirs names with
  | .error e => (some e, files)
  | .ok made =>
    match m.barrier? names files with
    | none => (none, made)
    | some n => (some .refused, (files.makeDirs (names.take n)).toOption.getD files)

end Machine

/-- The outcomes of the processes to come, all others succeed, and the calls made so far; the machine that
they are made on, and how many milliseconds a build takes by its clock. -/
structure Shell where
  script : List Outcome
  calls : List (List UnitText)
  machine : Machine
  elapsed : Int

namespace Shell

/-- No process was started yet. -/
def ofScript (script : List Outcome) : Shell := ⟨script, [], .inert, 0⟩

/-- Starts a process, which may change files. -/
def start (sh : Shell) (call : List UnitText) (files : FileTree) : Outcome × FileTree × Shell :=
  let outcome := sh.script.headD .success
  (outcome, sh.machine.touch call outcome files,
    { sh with script := sh.script.tail, calls := sh.calls ++ [call] })

end Shell

/-! ## Failures -/

/-- The C text of a build and the program made of it. -/
structure Artifacts where
  code : Path
  executable : Path
  deriving DecidableEq, Repr

inductive ToolFailure where
  | compiler (code : Path) (err : String)
  | program (artifacts : Artifacts) (exitCode : Option Int) (signal : Option String) (err : String)
  deriving DecidableEq, Repr

namespace ToolFailure

/-- What the tool itself said. -/
def details : ToolFailure → String
  | compiler _ err => err
  | program _ _ _ err => err

def message : ToolFailure → String
  | compiler _ _ => "Error: Compilation failed."
  | program _ exitCode signal _ =>
    match signal.filter (· ≠ "") with
    | some name => "Error: Program terminated by signal " ++ name ++ "."
    | none => "Error: Program exited with status " ++
        (match exitCode with | some n => toString n | none => "unknown") ++ "."

end ToolFailure

inductive Failure where
  | config (e : ConfigError)
  | compile (e : CompileError)
  | tool (e : ToolFailure)
  | file (e : FileFault)
  | noRule (e : NoRule)
  deriving Repr

def Failure.ofCompile : CompileFailure → Failure
  | .source e => .compile e
  | .noRule e => .noRule e

/-! ## Commands -/

structure Workspace where
  files : FileTree
  shell : Shell
  console : Console

abbrev Command := EStateM Failure Workspace

namespace Command

/-- What a part of a command does, as a command. -/
def lift {ε α : Type} (wrap : ε → Failure) : Except ε α → Command α
  | .ok a => pure a
  | .error e => throw (wrap e)

def files : Command FileTree := return (← get).files

def shell : Command Shell := return (← get).shell

/-- A file operation that looks at the files. -/
def ask {α : Type} (operation : FileTree → Except FileFault α) : Command α := do
  lift .file (operation (← files))

/-- A file operation that changes the files. -/
def change (operation : FileTree → Except FileFault FileTree) : Command Unit := do
  let w ← get
  let files ← lift .file (operation w.files)
  set { w with files }

def write (p : Path) (text : String) : Command Unit := do
  change ((← shell).machine.write p text)

/-- Fails if there was a fault. -/
def raise : Option FileFault → Command Unit
  | none => pure ()
  | some e => throw (.file e)

def makeDirs (names : List UnitText) : Command Unit := do
  let w ← get
  let (fault, files) := w.shell.machine.makeDirs names w.files
  set { w with files }
  raise fault

def say (text : Console → Console) : Command Unit :=
  modify fun w => { w with console := text w.console }

def start (call : List UnitText) : Command ProcessResult := do
  let w ← get
  let (outcome, files, shell) := w.shell.start call w.files
  set { w with files, shell }
  return outcome.result

end Command

end IntLang
