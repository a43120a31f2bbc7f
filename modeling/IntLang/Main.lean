import IntLang.CommandLine

/-!
# The program

The command line on the files of this machine. A command works on a tree of those files that it can
ask for; what it changes in the tree is then written out. No process is started from here: a call
of the compiler is reported as not started.
-/

namespace IntLang.Main

/-- The tree with what stands on the disk on the way to a path. -/
def survey (names : List UnitText) (files : FileTree) : IO FileTree := do
  let here ← IO.currentDir
  let mut files := files
  for depth in List.range names.length do
    let above := names.take (depth + 1)
    let place := here / Path.text ⟨above, false⟩
    if ← place.isDir then
      files := (files.makeDirs above).toOption.getD files
    else if ← place.pathExists then
      files := (FileTree.writeAt (← IO.FS.readFile place) files above).toOption.getD files
  return files

/-- The places that a command looks at, by the arguments and the files seen so far. -/
def places (dir : Path) (args : List String) (files : FileTree) : List Path :=
  if args.head? = some "init" then [dir.join (Text.units (args[1]?.getD Project.defaultName))]
  else match Config.load files dir args[1]? with
    | .ok config => [config.entry, config.job.artifacts.code, config.out.join "result.txt"]
    | .error _ => []

/-- Writes out all that is new in a tree. -/
def save (before after : FileTree) : IO Unit := do
  let here ← IO.currentDir
  let old := before.listing []
  for (names, content) in after.listing [] do
    unless old.contains (names, content) do
      let place := here / Path.text ⟨names, false⟩
      match content with
      | none => IO.FS.createDirAll place
      | some text => IO.FS.writeFile place text

def fileMessage : FileFault → String
  | .notFound => "no such file or directory"
  | .notDirectory => "not a directory"
  | .isDirectory => "is a directory"
  | .refused => "permission denied"

/-- What is said of a configuration file that gives no JSON. -/
def words : NoJson → String
  | .unread fault => fileMessage fault
  | .malformed text => if text = "" then "unexpected end of text" else "unexpected text"

/-- The template is part of the program, and stands in the tree beside it. -/
def unpack (place : Path) (files : FileTree) : FileTree :=
  (Template.standard.listing place.segments).foldl (fun files (names, content) =>
    let written := match content with
      | none => files.makeDirs names
      | some text => FileTree.writeAt text files names
    written.toOption.getD files) files

def run (args : List String) : IO UInt32 := do
  let dir := Path.ofText (← IO.currentDir).toString
  let out ← IO.getStdout
  let err ← IO.getStderr
  let mut files ← survey (dir.join configFile).segments .empty
  for place in places dir args files do
    files ← survey place.segments files
  let template := (Path.ofText (← IO.appPath).toString).parent.join "template"
  files := unpack template files
  let refused := Outcome.notStarted "processes are not started from here"
  let shell : Shell := { Shell.ofScript [refused, refused] with machine := { Machine.inert with words } }
  let w : Workspace := ⟨files, shell, .empty (← out.isTty)⟩
  let (status, trouble, w) := match (CommandLine.perform [template] dir args).run w with
    | .ok status w => (status.toUInt32, "", w)
    | .error (.file e) w => (1, fileMessage e ++ "\n", w)
    | .error _ w => (1, "internal error\n", w)
  save files w.files
  out.putStr w.console.out
  err.putStr (w.console.err ++ trouble)
  return status

end IntLang.Main

def main (args : List String) : IO UInt32 := IntLang.Main.run args
