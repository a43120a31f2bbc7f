import IntLang.CompileError

/-!
# Lexemes

The text in front of the scanner is either trivia (blanks and comments) or starts with a lexeme.
Both are told by their length, so that a piece and what follows it always make up the text.

* `triviaLength` measures blanks and `//` comments;
* `Lexeme.read` finds the lexeme at the front of a text: its kind, its length, and what is wrong
  with it, if anything is;
* `Lexeme.length_pos`: a lexeme is never empty.
-/

namespace IntLang

open CodeUnit

/-! ## Trivia -/

def isTrivial (u : CodeUnit) : Bool :=
  u == unit ' ' || u == unit '\r' || u == unit '\t' || u == unit '\n'

/-- Length of the blanks and comments at the front. Inside a comment all units count up to the line
feed, which is a blank again. -/
def triviaLength (inComment : Bool) : List CodeUnit → Nat
  | [] => 0
  | u :: rest =>
    if inComment then triviaLength (u != unit '\n') rest + 1
    else if isTrivial u then triviaLength false rest + 1
    else if u = unit '/' ∧ rest.head? = some (unit '/') then triviaLength true rest + 1
    else 0

/-! ## Strings -/

/-- Length of a string behind its opening quote, and whether a closing quote ends it. A backslash
takes the next unit with it; neither reaches over a line feed. -/
def stringBody (escaped : Bool) : List CodeUnit → Nat × Bool
  | [] => (0, false)
  | u :: rest =>
    if u = unit '\n' then (0, false)
    else if u = unit '"' ∧ !escaped then (1, true)
    else
      let (n, closed) := stringBody (!escaped && u == unit '\\') rest
      (n + 1, closed)

/-! ## Words, operators and punctuation -/

def wordKind (word : List CodeUnit) : TokenKind :=
  if word = Text.units "int" then .int
  else if word = Text.units "print" then .print
  else if word = Text.units "if" then .ifWord
  else if word = Text.units "else" then .elseWord
  else .ident

/-- The operators of two units, all ending in `=`. -/
def pairKind? (u v : CodeUnit) : Option TokenKind :=
  if v ≠ unit '=' then none
  else if u = unit '=' then some .eq
  else if u = unit '!' then some .ne
  else if u = unit '<' then some .le
  else if u = unit '>' then some .ge
  else none

def singleKind? (u : CodeUnit) : Option TokenKind :=
  if u = unit '=' then some .assign
  else if u = unit '<' then some .lt
  else if u = unit '>' then some .gt
  else if u = unit '+' then some .plus
  else if u = unit '-' then some .minus
  else if u = unit '*' then some .star
  else if u = unit '/' then some .slash
  else if u = unit ';' then some .semi
  else if u = unit '(' then some .lparen
  else if u = unit ')' then some .rparen
  else if u = unit '{' then some .lbrace
  else if u = unit '}' then some .rbrace
  else none

/-- The largest number that may be written. -/
def maxNumber : Nat := 2147483647

/-! ## Lexemes -/

structure Lexeme where
  kind : TokenKind
  length : Nat
  fault : Option Detail
  deriving DecidableEq, Repr

namespace Lexeme

/-- A string with its quotes. -/
def readString (rest : List CodeUnit) : Lexeme :=
  let (n, closed) := stringBody false rest
  ⟨.string, n + 1, if closed then none else some .unterminatedString⟩

/-- A run of digits. A word that starts with digits is one malformed number. -/
def readNumber (text : List CodeUnit) : Lexeme :=
  let digits := text.takeWhile isDigit
  if (text.dropWhile isDigit).head?.any isWordStart then
    ⟨.number, (text.takeWhile isWordPart).length, some .malformedNumber⟩
  else ⟨.number, digits.length, if Text.numeral digits > maxNumber then some .numberOutOfRange else none⟩

def readWord (text : List CodeUnit) : Lexeme :=
  let word := text.takeWhile isWordPart
  ⟨wordKind word, word.length, none⟩

/-- Two units are tried before one. -/
def readSymbol (u : CodeUnit) (rest : List CodeUnit) : Lexeme :=
  match rest.head?.bind (pairKind? u) with
  | some kind => ⟨kind, 2, none⟩
  | none =>
    match singleKind? u with
    | some kind => ⟨kind, 1, none⟩
    | none => ⟨.invalid, 1, some .unknownCharacter⟩

/-- The lexeme at the front of a text that starts with `u` and goes on with `rest`. -/
def read (u : CodeUnit) (rest : List CodeUnit) : Lexeme :=
  if u = unit '"' then readString rest
  else if isDigit u then readNumber (u :: rest)
  else if isWordStart u then readWord (u :: rest)
  else readSymbol u rest

theorem length_pos (u : CodeUnit) (rest : List CodeUnit) : 0 < (read u rest).length := by
  unfold read
  split
  · simp [readString]
  split
  · next h =>
    have hp : isWordPart u = true := by simp [isWordPart, h]
    unfold readNumber
    simp only
    split <;> simp [h, hp]
  split
  · next h => simp [readWord, isWordPart, h]
  · unfold readSymbol
    split
    · simp
    · split <;> simp

end Lexeme

end IntLang
