import IntLang.Json.Reader
import IntLang.Files.FileTree

/-!
# Project configuration

A project directory may hold a configuration file. What to build comes from the file named on the
command line, else from the configuration, else it is `src/main.mc`; the output goes where the
configuration says, else into `out`, which stands beside a file named on the command line.

* `Settings.ofJson` checks the four keys that count and looks at no others;
* `Config.load` finds the configuration of a directory.
-/

namespace IntLang

/-- Why a configuration file gives no JSON: it cannot be read, or its text is something else. -/
inductive NoJson where
  | unread (fault : FileFault)
  | malformed (text : String)
  deriving DecidableEq, Repr

/-- What is wrong with a project. -/
inductive ConfigError where
  | invalidJson (cause : NoJson)
  | notObject
  | notString (key : String)
  | notStrings (key : String)
  | sourceNotFound (path : Path)
  | folderExists (name : String)
  | templateNotFound (templates : List Path)
  deriving DecidableEq, Repr

def configFile : String := "minic.config.json"

/-- The message, with the words of the JSON reader for a file that it makes nothing of. -/
def ConfigError.message (words : NoJson → String) : ConfigError → String
  | invalidJson cause => configFile ++ ": invalid JSON (" ++ words cause ++ ")"
  | notObject => configFile ++ ": expected a JSON object"
  | notString key => configFile ++ ": \"" ++ key ++ "\" must be a string"
  | notStrings key => configFile ++ ": \"" ++ key ++ "\" must be an array of strings"
  | sourceNotFound path => "source file not found: " ++ path.text
  | folderExists name => "folder \"" ++ name ++ "\" already exists"
  | templateNotFound templates =>
    "template not found (looked in " ++ Text.joined ", " (templates.map Path.text) ++ ")"

/-! ## Settings -/

/-- The values of a configuration file. -/
structure Settings where
  entry : Option UnitText := none
  out : Option UnitText := none
  compiler : Option UnitText := none
  flags : Option (List UnitText) := none
  deriving DecidableEq, Repr

namespace Settings

def stringOf : Json → Option UnitText
  | .string s => some s
  | _ => none

def stringsOf : Json → Option (List UnitText)
  | .array items => items.mapM stringOf
  | _ => none

def stringAt (members : List (UnitText × Json)) (key : String) :
    Except ConfigError (Option UnitText) :=
  match Json.member? members key with
  | none => .ok none
  | some value =>
    match stringOf value with
    | some s => .ok (some s)
    | none => .error (.notString key)

def stringsAt (members : List (UnitText × Json)) (key : String) :
    Except ConfigError (Option (List UnitText)) :=
  match Json.member? members key with
  | none => .ok none
  | some value =>
    match stringsOf value with
    | some ss => .ok (some ss)
    | none => .error (.notStrings key)

def ofJson : Json → Except ConfigError Settings
  | .object members => do
    let entry ← stringAt members "entry"
    let out ← stringAt members "out"
    let compiler ← stringAt members "cc"
    let flags ← stringsAt members "cflags"
    return { entry, out, compiler, flags }
  | _ => .error .notObject

/-- The settings of a directory; without a configuration file there are none. A file that cannot be
read is no better than one that is not JSON. -/
def load (files : FileTree) (dir : Path) : Except ConfigError Settings :=
  let path := dir.join configFile
  if files.exists path then
    match files.read path with
    | .error fault => .error (.invalidJson (.unread fault))
    | .ok text =>
      match Json.ofText? text with
      | some json => ofJson json
      | none => .error (.invalidJson (.malformed text))
  else .ok {}

end Settings

/-! ## Configurations -/

structure Config where
  entry : Path
  out : Path
  name : UnitText
  compiler : UnitText
  flags : List UnitText
  deriving DecidableEq, Repr

namespace Config

/-- What to build in a directory, by the settings and the file that was named, if one was. -/
def ofSettings (settings : Settings) (dir : Path) (file : Option String) : Config :=
  let file := (file.filter (· ≠ "")).map Text.units
  let entry := dir.resolve (file.getD (settings.entry.getD "src/main.mc"))
  { entry
    out := if file.isSome ∧ settings.out.isNone then entry.parent.join "out"
      else dir.resolve (settings.out.getD "out")
    name := entry.stem ".mc"
    compiler := settings.compiler.getD "gcc"
    flags := settings.flags.getD [] }

def load (files : FileTree) (dir : Path) (file : Option String) : Except ConfigError Config :=
  (Settings.load files dir).map fun settings => ofSettings settings dir file

end Config

end IntLang
