import IntLang.Text.CodeUnit
import IntLang.Text.Pieces

/-!
# Paths

A path is absolute and normalized: the names on the way down from the root, none of them empty, `.`
or `..`. It remembers whether it was written with a closing slash; such a path can only name a
directory.

* `Path.join` goes on from a path by any text, `Path.resolve` starts again at the root if the text
  does, and drops a closing slash;
* `Path.stem` is the last name without a given ending;
* `Path.units` is the written form, `Path.text` the form that is shown.
-/

namespace IntLang

structure Path where
  segments : List UnitText
  slash : Bool
  deriving DecidableEq, Repr

namespace Path

def root : Path := ⟨[], false⟩

/-- One piece of a text between slashes: `..` goes up, but never above the root. -/
def step (above : List UnitText) (piece : UnitText) : List UnitText :=
  if piece = [] ∨ piece = Text.units "." then above
  else if piece = Text.units ".." then above.dropLast
  else above ++ [piece]

def walk (above : List UnitText) (text : UnitText) : List UnitText :=
  (Text.runs (unit '/') text).foldl step above

def endsInSlash (text : UnitText) : Bool := text.getLast? == some (unit '/')

def join (base : Path) (text : UnitText) : Path :=
  if text = [] then base else ⟨walk base.segments text, endsInSlash text⟩

def ofText (text : UnitText) : Path := root.join text

def resolve (base : Path) (text : UnitText) : Path :=
  ⟨walk (if text.head? = some (unit '/') then [] else base.segments) text, false⟩

def parent (p : Path) : Path := ⟨p.segments.dropLast, false⟩

/-- The last name without the given ending, unless it is nothing else. The root has no name. -/
def stem (p : Path) (ending : UnitText) : UnitText :=
  let name := p.segments.getLast?.getD []
  if name ≠ ending ∧ ending.isSuffixOf name then name.take (name.length - ending.length) else name

/-- The written form: a slash before every name. -/
def units (p : Path) : UnitText :=
  unit '/' :: [unit '/'].intercalate p.segments ++
    (if p.slash ∧ p.segments ≠ [] then [unit '/'] else [])

def text (p : Path) : String := Text.ofUnits p.units

end Path

end IntLang
