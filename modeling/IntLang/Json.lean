import IntLang.Text.Blank
import IntLang.Text.Pieces

/-!
# JSON values

Values of the JSON format and their compact text: no blanks, members in their order, and in strings
only quotes, backslashes, control characters and halves of surrogate pairs escaped. Strings are texts in
units.

* `Json.member?` finds a member of an object: the last one of its name counts.
-/

namespace IntLang

inductive Json where
  | null
  | bool (value : Bool)
  /-- A number as it is written. -/
  | number (literal : String)
  | string (value : UnitText)
  | array (items : List Json)
  | object (members : List (UnitText × Json))
  deriving Inhabited, Repr

namespace Json

/-- The value of the last member called `key`. -/
def member? (members : List (UnitText × Json)) (key : UnitText) : Option Json :=
  (members.reverse.find? fun m => m.1 == key).map Prod.snd

def ofInt (n : Int) : Json := .number (toString n)

/-! ## Compact text -/

/-- A unit by its code, in hexadecimal digits. -/
def escapeCode (u : CodeUnit) : List Char :=
  ['\\', 'u', Nat.digitChar (u.toNat / 4096), Nat.digitChar (u.toNat / 256 % 16),
    Nat.digitChar (u.toNat / 16 % 16), Nat.digitChar (u.toNat % 16)]

def escapeUnit (u : CodeUnit) : List Char :=
  if u = unit '"' then ['\\', '"']
  else if u = unit '\\' then ['\\', '\\']
  else if u = unit '\n' then ['\\', 'n']
  else if u = unit '\r' then ['\\', 'r']
  else if u = unit '\t' then ['\\', 't']
  else if u = unit '\x08' then ['\\', 'b']
  else if u = unit '\x0c' then ['\\', 'f']
  else if u < 32 || u.isHigh || u.isLow then escapeCode u
  else [Char.ofNat u.toNat]

/-- Surrogate pairs are written as they are, and a half alone by its code. -/
def escapeUnits : UnitText → List Char
  | [] => []
  | [u] => escapeUnit u
  | u :: v :: rest =>
    if u.isHigh && v.isLow then Text.pairChar u v :: escapeUnits rest
    else escapeUnit u ++ escapeUnits (v :: rest)

def quoted (us : UnitText) : String := "\"" ++ String.ofList (escapeUnits us) ++ "\""

mutual

def compact : Json → String
  | null => "null"
  | bool b => if b then "true" else "false"
  | number literal => literal
  | string s => quoted s
  | array items => "[" ++ Text.joined "," (compactItems items) ++ "]"
  | object members => "\x7b" ++ Text.joined "," (compactMembers members) ++ "\x7d"

def compactItems : List Json → List String
  | [] => []
  | item :: items => item.compact :: compactItems items

def compactMembers : List (UnitText × Json) → List String
  | [] => []
  | (key, value) :: members => (quoted key ++ ":" ++ value.compact) :: compactMembers members

end

end Json

end IntLang
