import IntLang.Project.Build
import IntLang.Project.Create

/-!
# The command line

The first argument names a command, the second is a file or a project's name.

* `CommandLine.perform` carries out a command and returns the exit status; failures of files are
  left to the caller, all others are reported.
-/

namespace IntLang.CommandLine

def version : String := "0.1.0"

def help : String :=
  "\nminic v" ++ version ++ ": compiler for a minimal integer language, via C\n\n" ++
  "COMMANDS:\n" ++
  "  minic init [name]     Create a new project\n" ++
  "  minic run [file]      Print the tree, compile and run\n" ++
  "  minic build [file]    Generate C and compile it\n" ++
  "  minic tree [file]     Print the parse tree\n" ++
  "  minic emit [file]     Print the generated C\n" ++
  "  minic help            Show this message\n\n" ++
  "Without [file], the entry comes from minic.config.json, or src/main.mc.\n"

/-- The command that the arguments name; a template is looked for in some directories. -/
def dispatch (templates : List Path) (dir : Path) (args : List String) : Command Nat :=
  let arg := args[1]?
  match args.head? with
  | some "init" => do
    let _ ← Project.create templates arg dir
    return 0
  | some "run" => do
    let _ ← Project.run dir arg
    return 0
  | some "build" => do
    let _ ← Project.build dir arg
    return 0
  | some "tree" => do
    Project.tree dir arg
    return 0
  | some "emit" => do
    Project.emit dir arg
    return 0
  | none | some "help" | some "--help" | some "-h" => do
    Command.say (·.line help)
    return 0
  | some other => do
    Command.say (·.fail ("Unknown command: \"" ++ other ++ "\"") "")
    Command.say (·.line "  Use \"minic help\" to list the commands")
    return 1

/-- Reports a failure; one of files is not for this console. -/
def report : Failure → Command Nat
  | .tool e => do
    Command.say (·.fail e.message e.details)
    return 1
  | .compile e => do
    Command.say (·.fail e.message "")
    return 1
  | .config e => do
    let words := (← Command.shell).machine.words
    Command.say (·.fail (e.message words) "")
    return 1
  | failure => throw failure

def perform (templates : List Path) (dir : Path) (args : List String) : Command Nat :=
  tryCatch (dispatch templates dir args) report

end IntLang.CommandLine
