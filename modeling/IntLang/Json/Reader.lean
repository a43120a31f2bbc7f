import IntLang.Json

/-!
# Reading JSON

`Json.ofText?` reads a text as one JSON value, with blanks around it and nothing else. The grammar is
the strict one: no comments, no trailing commas, no control characters in strings, no numbers such as
`01`, `.5` or `1.`.

Each reader takes its part off the front and gives the shorter rest. Strings are read as UTF-16
units, so that two escapes can make up one character.
-/

namespace IntLang.Json

/-- What is left of a text, shorter than a bound. -/
abbrev Rest (bound : Nat) := { rest : List Char // rest.length < bound }

/-- The same rest under a larger bound. -/
def Rest.below {m n : Nat} (rest : Rest m) (h : m ≤ n) : Rest n :=
  ⟨rest.1, Nat.lt_of_lt_of_le rest.2 h⟩

def isBlank (c : Char) : Bool := c == ' ' || c == '\t' || c == '\n' || c == '\r'

def dropBlanks (s : List Char) : List Char := s.dropWhile isBlank

theorem length_dropBlanks_le (s : List Char) : (dropBlanks s).length ≤ s.length :=
  (List.dropWhile_suffix _).length_le

theorem length_lt_of_dropBlanks {s r : List Char} {c : Char} (h : dropBlanks s = c :: r) :
    r.length < s.length := by
  have := length_dropBlanks_le s
  rw [h] at this
  exact this

/-! ## Numbers -/

/-- Length of a nonempty run of digits. -/
def digitsLength (s : List Char) : Option Nat :=
  match s.takeWhile Char.isDigit with
  | [] => none
  | digits => some digits.length

/-- Length of the whole part: zero alone, or digits that do not start with zero. -/
def wholeLength : List Char → Option Nat
  | '0' :: _ => some 1
  | s => digitsLength s

def fractionLength : List Char → Option Nat
  | '.' :: s => (digitsLength s).map (· + 1)
  | _ => some 0

def exponentLength : List Char → Option Nat
  | [] => some 0
  | e :: s =>
    if e = 'e' ∨ e = 'E' then
      match s with
      | [] => none
      | sign :: t =>
        if sign = '+' ∨ sign = '-' then (digitsLength t).map (· + 2)
        else (digitsLength (sign :: t)).map (· + 1)
    else some 0

def unsignedLength (s : List Char) : Option Nat := do
  let whole ← wholeLength s
  let fraction ← fractionLength (s.drop whole)
  let exponent ← exponentLength (s.drop (whole + fraction))
  return whole + fraction + exponent

def numberLength : List Char → Option Nat
  | '-' :: s => (unsignedLength s).map (· + 1)
  | s => unsignedLength s

/-- A number that starts with `c`. -/
def number? (c : Char) (s : List Char) : Option (Json × Rest (s.length + 1)) :=
  (numberLength (c :: s)).map fun n =>
    (.number (String.ofList ((c :: s).take n)), ⟨s.drop (n - 1), by rw [List.length_drop]; omega⟩)

/-- The rest behind a word. -/
def word? (word : List Char) (s : List Char) : Option (Rest (s.length + 1)) :=
  if word.isPrefixOf s then some ⟨s.drop word.length, by rw [List.length_drop]; omega⟩ else none

/-! ## Strings -/

def hexValue? (c : Char) : Option Nat :=
  if c.isDigit then some (c.toNat - 48)
  else if 'a' ≤ c ∧ c ≤ 'f' then some (c.toNat - 87)
  else if 'A' ≤ c ∧ c ≤ 'F' then some (c.toNat - 55)
  else none

/-- The unit of four hexadecimal digits. -/
def unitOfHex? (digits : List Char) : Option CodeUnit :=
  (digits.mapM hexValue?).map fun values => (values.foldl (fun n d => 16 * n + d) 0).toUInt16

/-- The unit of a short escape, by the character behind the backslash. -/
def escape? (c : Char) : Option CodeUnit :=
  if c = '"' ∨ c = '\\' ∨ c = '/' then some (unit c)
  else if c = 'b' then some 8
  else if c = 'f' then some 12
  else if c = 'n' then some 10
  else if c = 'r' then some 13
  else if c = 't' then some 9
  else none

/-- The units of a string behind its opening quote, up to its closing quote. -/
def stringBody? : (s : List Char) → Option (UnitText × Rest s.length)
  | [] => none
  | '"' :: s => some ([], ⟨s, by simp⟩)
  | '\\' :: 'u' :: a :: b :: c :: d :: s => do
    let u ← unitOfHex? [a, b, c, d]
    let (us, rest) ← stringBody? s
    return (u :: us, rest.below (by simp only [List.length_cons]; omega))
  | '\\' :: e :: s => do
    let u ← escape? e
    let (us, rest) ← stringBody? s
    return (u :: us, rest.below (by simp only [List.length_cons]; omega))
  | c :: s =>
    if c.toNat < 32 then none
    else do
      let (us, rest) ← stringBody? s
      return (Text.charUnits c ++ us, rest.below (by simp))

/-! ## Values -/

mutual

def value? (s : List Char) : Option (Json × Rest s.length) :=
  match h : dropBlanks s with
  | [] => none
  | c :: r =>
    have hr : r.length < s.length := length_lt_of_dropBlanks h
    if c = '"' then do
      let (us, rest) ← stringBody? r
      return (.string us, rest.below (by omega))
    else if c = '[' then
      match h' : dropBlanks r with
      | ']' :: r' => some (.array [], ⟨r', by have := length_lt_of_dropBlanks h'; omega⟩)
      | _ => do
        let (items, rest) ← items? r
        return (.array items, rest.below (by omega))
    else if c = '\x7b' then
      match h' : dropBlanks r with
      | '\x7d' :: r' => some (.object [], ⟨r', by have := length_lt_of_dropBlanks h'; omega⟩)
      | _ => do
        let (members, rest) ← members? r
        return (.object members, rest.below (by omega))
    else if c = 'n' then (word? "ull".toList r).map fun rest => (.null, rest.below (by omega))
    else if c = 't' then (word? "rue".toList r).map fun rest => (.bool true, rest.below (by omega))
    else if c = 'f' then (word? "alse".toList r).map fun rest => (.bool false, rest.below (by omega))
    else (number? c r).map fun (value, rest) => (value, rest.below (by omega))
termination_by 2 * s.length
decreasing_by all_goals omega

/-- The items of an array up to its closing bracket. -/
def items? (s : List Char) : Option (List Json × Rest s.length) := do
  let (item, rest) ← value? s
  have hrest := rest.2
  match h : dropBlanks rest.1 with
  | ',' :: r =>
    have hr := length_lt_of_dropBlanks h
    let (items, rest) ← items? r
    return (item :: items, rest.below (by omega))
  | ']' :: r => return ([item], ⟨r, by have := length_lt_of_dropBlanks h; omega⟩)
  | _ => none
termination_by 2 * s.length + 1
decreasing_by all_goals omega

/-- The members of an object up to its closing brace. -/
def members? (s : List Char) : Option (List (UnitText × Json) × Rest s.length) := do
  match h : dropBlanks s with
  | '"' :: r =>
    have hr := length_lt_of_dropBlanks h
    let (key, rest) ← stringBody? r
    have hrest := rest.2
    match h' : dropBlanks rest.1 with
    | ':' :: r' =>
      have hr' := length_lt_of_dropBlanks h'
      let (value, rest') ← value? r'
      have hrest' := rest'.2
      match h'' : dropBlanks rest'.1 with
      | ',' :: r'' =>
        have hr'' := length_lt_of_dropBlanks h''
        let (members, rest'') ← members? r''
        return ((key, value) :: members, rest''.below (by omega))
      | '\x7d' :: r'' => return ([(key, value)], ⟨r'', by have := length_lt_of_dropBlanks h''; omega⟩)
      | _ => none
    | _ => none
  | _ => none
termination_by 2 * s.length + 1
decreasing_by all_goals omega

end

/-- The value that a text is the JSON of. -/
def ofText? (text : String) : Option Json := do
  let (value, rest) ← value? text.toList
  guard (dropBlanks rest.1).isEmpty
  return value

end IntLang.Json
