import IntLang.Text.CodeUnit

/-!
# Blanks and leading numbers

Blank characters are the control characters from TAB to CR, the byte order mark, the line and
paragraph separators, and the space separators of Unicode (category Zs).

* `Text.trimEnd` removes the blanks that end a text;
* `Text.leadingInt?` reads the integer that a text starts with, behind blanks.
-/

namespace IntLang.Text

def isBlank (c : Char) : Bool :=
  ('\t' ≤ c && c ≤ '\r') || c == ' ' || c == '\u00a0' || c == '\u1680' ||
    ('\u2000' ≤ c && c ≤ '\u200a') || c == '\u2028' || c == '\u2029' || c == '\u202f' ||
    c == '\u205f' || c == '\u3000' || c == '\ufeff'

def trimEnd (s : String) : String :=
  String.ofList (s.toList.reverse.dropWhile isBlank).reverse

/-- The number of the digits at the start of a text, if there are any. -/
def leadingNat? (us : List CodeUnit) : Option Nat :=
  match us.takeWhile CodeUnit.isDigit with
  | [] => none
  | digits => some (numeral digits)

/-- The integer at the start of a text: blanks, a sign, digits. -/
def leadingInt? (us : List CodeUnit) : Option Int :=
  match us.dropWhile fun u => isBlank (Char.ofNat u.toNat) with
  | [] => none
  | u :: rest =>
    if u = unit '-' then (leadingNat? rest).map fun n => -(n : Int)
    else if u = unit '+' then (leadingNat? rest).map Int.ofNat
    else (leadingNat? (u :: rest)).map Int.ofNat

end IntLang.Text
