import IntLang.Lexeme

/-!
# Scanning

A cursor is the text not yet read and its place. `Cursor.next` takes trivia and one lexeme off the
front; a faulty lexeme is taken too, so that scanning can go on behind it.

* `Cursor.skip_skip`: taking off `m` units and then `n` units takes off `m + n`;
* `Cursor.next_length_lt`: while text is left behind trivia, the rest gets shorter;
* `Cursor.pulls` lists what scanning delivers up to the end of the text.
-/

namespace IntLang

/-- What one pull delivers: a token, or the error that the text at hand is none. -/
abbrev Pull := Except CompileError Token

structure Cursor where
  rest : List CodeUnit
  pos : Position
  deriving Repr

namespace Cursor

/-- The cursor at the start of a text. -/
def start (source : List CodeUnit) : Cursor := ⟨source, .start⟩

/-- Takes `n` units off the front. -/
def skip (c : Cursor) (n : Nat) : Cursor := ⟨c.rest.drop n, c.pos.advance (c.rest.take n)⟩

theorem skip_skip (c : Cursor) (m n : Nat) : (c.skip m).skip n = c.skip (m + n) := by
  simp [skip, ← Position.advance_append, List.take_add]

def skipTrivia (c : Cursor) : Cursor := c.skip (triviaLength false c.rest)

/-! ## One pull -/

/-- The token that a lexeme makes of the text at the cursor. -/
def token (c : Cursor) (l : Lexeme) : Token := ⟨l.kind, c.rest.take l.length, c.pos⟩

/-- The token at the end of the text. -/
def endToken (c : Cursor) : Token := ⟨.eof, [], c.pos⟩

/-- What stands at the cursor, which is behind trivia, and the cursor behind it. -/
def take (c : Cursor) : Pull × Cursor :=
  match c.rest with
  | [] => (.ok c.endToken, c)
  | u :: rest =>
    let l := Lexeme.read u rest
    (match l.fault with
      | none => .ok (c.token l)
      | some detail => .error (.unexpected (c.token l) (some detail)), c.skip l.length)

/-- One pull. At the end it delivers the end token again and again. -/
def next (c : Cursor) : Pull × Cursor := c.skipTrivia.take

theorem take_length_lt {c : Cursor} (h : c.rest ≠ []) : c.take.2.rest.length < c.rest.length := by
  obtain ⟨u, rest, hc⟩ := List.exists_cons_of_ne_nil h
  have := Lexeme.length_pos u rest
  simp only [take, hc, skip, List.length_drop]
  simp only [List.length_cons]
  omega

theorem skip_length_le (c : Cursor) (n : Nat) : (c.skip n).rest.length ≤ c.rest.length := by
  simp [skip]

theorem next_length_lt {c : Cursor} (h : c.skipTrivia.rest ≠ []) :
    c.next.2.rest.length < c.rest.length :=
  Nat.lt_of_lt_of_le (take_length_lt h) (skip_length_le c _)

/-! ## All pulls -/

/-- The results of `n` pulls in a row. -/
def pull : Nat → Cursor → List Pull
  | 0, _ => []
  | n + 1, c => c.next.1 :: pull n c.next.2

/-- The results of all pulls before the end token, and the end token. -/
def pulls (c : Cursor) : List Pull × Token :=
  if _h : c.skipTrivia.rest = [] then ([], c.skipTrivia.endToken)
  else
    let (more, last) := pulls c.next.2
    (c.next.1 :: more, last)
termination_by c.rest.length
decreasing_by exact next_length_lt _h

end Cursor

/-- The tokens of a text, the end token included, or its first lexical error. -/
def lex (source : List CodeUnit) : Except CompileError (List Token) := do
  let (pulls, last) := (Cursor.start source).pulls
  let tokens ← pulls.mapM id
  return tokens ++ [last]

end IntLang
