/-!
# UTF-16 code units

Positions in a source text count UTF-16 code units, and the scanner reads one unit at a time. Sources,
the names and texts of a program and all that is made of them, names of files and strings in
configurations are kept in units, since they may hold half of a surrogate pair, which no `String` does. A
text goes to units by `Text.units`; where it is shown, it comes back by `Text.ofUnits`.

* `Text.units_append`: the units of a joined text are those of its parts, in order;
* `Text.ofUnits_units`: nothing is lost on the way to units and back;
* the classes `isDigit`, `isWordStart` and `isWordPart` hold ASCII units only;
* `Text.numeral` reads digits in base ten.
-/

namespace IntLang

/-- A UTF-16 code unit. -/
abbrev CodeUnit := UInt16

/-- The unit of a character of the basic plane. -/
@[reducible] def unit (c : Char) : CodeUnit := c.toNat.toUInt16

/-- A text in units. -/
abbrev UnitText := List CodeUnit

instance : LawfulBEq UnitText := inferInstance

namespace CodeUnit

/-- First halves of surrogate pairs. -/
def isHigh (u : CodeUnit) : Bool := 0xD800 ≤ u && u < 0xDC00

/-- Second halves of surrogate pairs. -/
def isLow (u : CodeUnit) : Bool := 0xDC00 ≤ u && u < 0xE000

/-! ## Classes -/

def isDigit (u : CodeUnit) : Bool := unit '0' ≤ u && u ≤ unit '9'

def isWordStart (u : CodeUnit) : Bool :=
  (unit 'a' ≤ u && u ≤ unit 'z') || (unit 'A' ≤ u && u ≤ unit 'Z') || u == unit '_'

def isWordPart (u : CodeUnit) : Bool := isWordStart u || isDigit u

end CodeUnit

namespace Text

open CodeUnit

/-! ## Text to units -/

/-- A character of the basic plane is one unit; any other is a surrogate pair. -/
def charUnits (c : Char) : List CodeUnit :=
  if c.toNat < 0x10000 then [c.toNat.toUInt16]
  else [(0xD800 + (c.toNat - 0x10000) / 0x400).toUInt16, (0xDC00 + (c.toNat - 0x10000) % 0x400).toUInt16]

def units (s : String) : UnitText := s.toList.flatMap charUnits

instance : Coe String UnitText := ⟨units⟩

@[simp] theorem units_empty : units "" = [] := rfl

@[simp] theorem units_append (s t : String) : units (s ++ t) = units s ++ units t := by
  simp [units]

/-! ## Units to text -/

/-- The upper-case hexadecimal digit of a number below sixteen. -/
def hexDigit (n : Nat) : Char := if n < 10 then Char.ofNat (48 + n) else Char.ofNat (55 + n)

/-- Half of a surrogate pair stands for no character: alone it is spelled by its code, as in
`<D83D>`. -/
def loneUnit (u : CodeUnit) : List Char :=
  if u.isHigh || u.isLow then
    ['<', hexDigit (u.toNat / 4096), hexDigit (u.toNat / 256 % 16), hexDigit (u.toNat / 16 % 16),
      hexDigit (u.toNat % 16), '>']
  else [Char.ofNat u.toNat]

/-- The character of a surrogate pair. -/
def pairChar (high low : CodeUnit) : Char :=
  Char.ofNat (0x10000 + (high.toNat - 0xD800) * 0x400 + (low.toNat - 0xDC00))

def charsOfUnits : UnitText → List Char
  | [] => []
  | [u] => loneUnit u
  | u :: v :: rest =>
    if u.isHigh && v.isLow then pairChar u v :: charsOfUnits rest
    else loneUnit u ++ charsOfUnits (v :: rest)

def ofUnits (us : UnitText) : String := String.ofList (charsOfUnits us)

/-! ## There and back -/

theorem toNat_toUInt16 {n : Nat} (h : n < 0x10000) : n.toUInt16.toNat = n := Nat.mod_eq_of_lt h

theorem charsOfUnits_cons_of_whole {u : CodeUnit} (h : u.isHigh = false) (l : u.isLow = false)
    (us : List CodeUnit) : charsOfUnits (u :: us) = Char.ofNat u.toNat :: charsOfUnits us := by
  cases us <;> simp [charsOfUnits, loneUnit, h, l]

theorem charsOfUnits_charUnits (c : Char) (us : List CodeUnit) :
    charsOfUnits (charUnits c ++ us) = c :: charsOfUnits us := by
  have hc : c.toNat < 0xD800 ∨ 0xDFFF < c.toNat ∧ c.toNat < 0x110000 := c.valid
  unfold charUnits
  split
  · next h =>
    have hn := toNat_toUInt16 h
    rw [List.singleton_append, charsOfUnits_cons_of_whole, hn, Char.ofNat_toNat]
    all_goals
      simp only [isHigh, isLow, Bool.and_eq_false_iff, decide_eq_false_iff_not,
        UInt16.le_iff_toNat_le, UInt16.lt_iff_toNat_lt, hn]
      simp only [UInt16.reduceToNat]
      omega
  · next h =>
    have hi := @toNat_toUInt16 (0xD800 + (c.toNat - 0x10000) / 0x400) (by omega)
    have lo := @toNat_toUInt16 (0xDC00 + (c.toNat - 0x10000) % 0x400) (by omega)
    generalize (0xD800 + (c.toNat - 0x10000) / 0x400).toUInt16 = high at *
    generalize (0xDC00 + (c.toNat - 0x10000) % 0x400).toUInt16 = low at *
    have pair : (isHigh high && isLow low) = true := by
      simp only [isHigh, isLow, Bool.and_eq_true, decide_eq_true_iff, UInt16.le_iff_toNat_le,
        UInt16.lt_iff_toNat_lt, hi, lo]
      simp only [UInt16.reduceToNat]
      omega
    have hp : pairChar high low = c := by
      rw [pairChar, show 0x10000 + (high.toNat - 0xD800) * 0x400 + (low.toNat - 0xDC00) = c.toNat by
        omega, Char.ofNat_toNat]
    simp only [List.cons_append, List.nil_append, charsOfUnits, pair, hp, if_true]

@[simp] theorem ofUnits_units (s : String) : ofUnits (units s) = s := by
  have h (cs : List Char) : charsOfUnits (cs.flatMap charUnits) = cs := by
    induction cs with
    | nil => rfl
    | cons c cs ih => rw [List.flatMap_cons, charsOfUnits_charUnits, ih]
  rw [ofUnits, units, h, String.ofList_toList]

@[simp] theorem units_inj {s t : String} : units s = units t ↔ s = t := by
  refine ⟨fun h => ?_, congrArg units⟩
  rw [← ofUnits_units s, h, ofUnits_units]

@[simp] theorem units_eq_nil {s : String} : units s = [] ↔ s = "" := units_inj (t := "")

@[simp] theorem nil_eq_units {s : String} : [] = units s ↔ s = "" := eq_comm.trans units_eq_nil

/-! ## Numbers -/

/-- The number that digits denote in base ten. -/
def numeral (digits : List CodeUnit) : Nat :=
  digits.foldl (fun n u => 10 * n + (u.toNat - 48)) 0

end Text

end IntLang
