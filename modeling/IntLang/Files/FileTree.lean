import IntLang.Files.Path

/-!
# File trees

A file tree is a file, or a directory of named trees. Every directory of a tree exists, so a path
leads somewhere, or fails at its first name that is missing or at a file on its way.

* `FileTree.find` follows a path; `exists`, `read`, `list`, `write` and `makeDirs` are the file
  operations, with their failures;
* `FileTree.listing` lists all that stands in a tree.
-/

namespace IntLang

/-- Why a file operation failed. A place can also be refused that the tree has room for. -/
inductive FileFault where
  | notFound
  | notDirectory
  | isDirectory
  | refused
  deriving DecidableEq, Repr

inductive FileTree where
  | file (text : String)
  | dir (entries : List (UnitText × FileTree))
  deriving Inhabited, Repr

namespace FileTree

def empty : FileTree := .dir []

/-! ## Entries of a directory -/

abbrev Entries := List (UnitText × FileTree)

def child? (name : UnitText) : Entries → Option FileTree
  | [] => none
  | (other, t) :: entries => if other = name then some t else child? name entries

/-- The entry takes the place of the one of its name, or comes last. -/
def put (name : UnitText) (t : FileTree) : Entries → Entries
  | [] => [(name, t)]
  | (other, u) :: entries =>
    if other = name then (name, t) :: entries else (other, u) :: put name t entries

theorem child?_put_self (name : UnitText) (t : FileTree) (entries : Entries) :
    child? name (put name t entries) = some t := by
  induction entries with
  | nil => simp [put, child?]
  | cons e entries ih =>
    simp only [put]
    split <;> simp_all [child?]

theorem child?_put_of_ne {name other : UnitText} (h : other ≠ name) (t : FileTree)
    (entries : Entries) : child? other (put name t entries) = child? other entries := by
  induction entries with
  | nil => simp [put, child?, h.symm]
  | cons e entries ih =>
    simp only [put]
    split
    · next hf => simp [child?, hf, h.symm]
    · simp [child?, ih]

/-! ## Looking -/

/-- The tree at the end of a path. -/
def find : FileTree → List UnitText → Except FileFault FileTree
  | t, [] => .ok t
  | .file _, _ :: _ => .error .notDirectory
  | .dir entries, name :: names =>
    match child? name entries with
    | none => .error .notFound
    | some t => t.find names

/-- The tree that a path names. A file is not named with a closing slash. -/
def named (t : FileTree) (p : Path) : Except FileFault FileTree :=
  match t.find p.segments with
  | .ok (.file text) => if p.slash then .error .notDirectory else .ok (.file text)
  | r => r

def «exists» (t : FileTree) (p : Path) : Bool := (t.named p).toOption.isSome

def read (t : FileTree) (p : Path) : Except FileFault String :=
  match t.named p with
  | .ok (.file text) => .ok text
  | .ok (.dir _) => .error .isDirectory
  | .error e => .error e

def isDirectory : FileTree → Bool
  | .file _ => false
  | .dir _ => true

/-- The names of some entries, and which of them are those of directories. -/
def kinds (entries : Entries) : List (UnitText × Bool) :=
  entries.map fun (name, t) => (name, t.isDirectory)

def list (t : FileTree) (p : Path) : Except FileFault (List (UnitText × Bool)) :=
  match t.named p with
  | .ok (.dir entries) => .ok (kinds entries)
  | .ok (.file _) => .error .notDirectory
  | .error e => .error e

/-! ## Changing -/

/-- A file in the place that a path leads to; the directory it stands in has to exist. -/
def writeAt (text : String) : FileTree → List UnitText → Except FileFault FileTree
  | .file _, [] => .ok (.file text)
  | .dir _, [] => .error .isDirectory
  | .file _, _ :: _ => .error .notDirectory
  | .dir entries, name :: names =>
    match child? name entries with
    | some t => do return .dir (put name (← writeAt text t names) entries)
    | none => if names = [] then .ok (.dir (put name (.file text) entries)) else .error .notFound

def write (t : FileTree) (p : Path) (text : String) : Except FileFault FileTree := do
  let t' ← writeAt text t p.segments
  if p.slash then .error .notDirectory else .ok t'

/-- The tree with all directories of a path. -/
def makeDirs : FileTree → List UnitText → Except FileFault FileTree
  | .file _, _ => .error .notDirectory
  | .dir entries, [] => .ok (.dir entries)
  | .dir entries, name :: names => do
    return .dir (put name (← makeDirs ((child? name entries).getD empty) names) entries)

/-- The tree without what a path leads to. The root stays, but loses its entries. -/
def remove : FileTree → List UnitText → FileTree
  | .dir _, [] => empty
  | .dir entries, [name] => .dir (entries.filter (·.1 ≠ name))
  | .dir entries, name :: names =>
    match child? name entries with
    | none => .dir entries
    | some t => .dir (put name (t.remove names) entries)
  | t, _ => t

/-! ## Listing -/

mutual

/-- All paths below a tree, with the text of each file; a directory has none. -/
def listing (above : List UnitText) : FileTree → List (List UnitText × Option String)
  | .file text => [(above, some text)]
  | .dir entries => (above, none) :: listings above entries

def listings (above : List UnitText) : Entries → List (List UnitText × Option String)
  | [] => []
  | (name, t) :: entries => listing (above ++ [name]) t ++ listings above entries

end

end FileTree

end IntLang
