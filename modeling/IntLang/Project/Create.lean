import IntLang.Project.Workspace
import IntLang.Project.Template

/-!
# Creating projects

A new project is a copy of a template, which is a directory like others: it is read while its copy is
made, one entry after another.

* `Project.findTemplate` looks for the template;
* `Project.copyTemplate` copies a directory, `Project.copyEntries` what is in it;
* `Project.create` makes a new project in a directory that did not exist before.
-/

namespace IntLang.Project

/-- The name of a project that is given none. -/
def defaultName : String := "my-minic-app"

/-- The first of some directories that exists. -/
def findTemplate (templates : List Path) : Command Path := do
  match templates.find? (← Command.files).exists with
  | some template => return template
  | none => throw (.config (.templateNotFound templates))

section

variable (name : String) (copy : Path → Path → Command (List Path)) (src dest : Path)

/-- Copies one entry of a directory; the result lists the files written. -/
def copyEntry : UnitText × Bool → Command (List Path)
  | (entry, true) => copy (src.join entry) (dest.join entry)
  | (entry, false) => do
    if entry = Template.keeper then return []
    let text ← Command.ask (·.read (src.join entry))
    Command.write (dest.join entry) (Template.fill name text)
    return [dest.join entry]

def copyEntries : List (UnitText × Bool) → Command (List Path)
  | [] => return []
  | entry :: entries => do
    let written ← copyEntry name copy src dest entry
    return written ++ (← copyEntries entries)

end

/-- Copies a directory into a new one, so many directories deep. -/
def copyTemplate (name : String) : Nat → Path → Path → Command (List Path)
  | 0, _, _ => throw (.file .refused)
  | depth + 1, src, dest => do
    Command.makeDirs dest.segments
    let entries ← Command.ask (·.list src)
    copyEntries name (copyTemplate name depth) src dest entries

/-- A new project in a directory; the result is its path. -/
def create (templates : List Path) (name : Option String) (dir : Path) : Command Path := do
  let name := name.getD defaultName
  let path := dir.join name
  if (← Command.files).exists path then throw (.config (.folderExists name))
  let template ← findTemplate templates
  -- a project may lie in its own template: then only the length of its paths ends the copying
  let depth := (← Command.shell).machine.deepest + 1
  let written ← copyTemplate name depth template path
  Command.say (·.ok
    ("Project \"" ++ name ++ "\" created (" ++ toString written.length ++ " files)") path.text)
  Command.say (·.line ("\n  cd " ++ name))
  Command.say (·.line "  minic run\n")
  return path

end IntLang.Project
