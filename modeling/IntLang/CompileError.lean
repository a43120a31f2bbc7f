import IntLang.Token

/-!
# Compile errors

The first error of a source ends its compilation: a token that does not fit, a name declared twice,
or a name used before its declaration. `CompileError.message` words all of them on one line.
-/

namespace IntLang

/-- What is wrong with a token. -/
inductive Detail where
  | unterminatedString
  | malformedNumber
  | numberOutOfRange
  | unknownCharacter
  | expected (kind : TokenKind)
  deriving DecidableEq, Repr

def Detail.text : Detail → String
  | unterminatedString => "unterminated string literal"
  | malformedNumber => "malformed number"
  | numberOutOfRange => "integer literal out of range"
  | unknownCharacter => "unknown character"
  | expected kind => "expected " ++ kind.spelling

inductive CompileError where
  | unexpected (token : Token) (detail : Option Detail)
  | duplicate (name : UnitText)
  | undeclared (name : UnitText)
  deriving DecidableEq, Repr

namespace CompileError

/-- How a message names the token it found. A string already stands in quotes. -/
def found (t : Token) : String :=
  match t.kind with
  | .eof => "end of input"
  | .string => t.text
  | _ => "\"" ++ t.text ++ "\""

def message : CompileError → String
  | unexpected t detail =>
    "Parse error: unexpected " ++ found t ++ " at line " ++ toString t.pos.line ++ ", col " ++
      toString t.pos.col ++ (match detail with | none => "" | some d => ", " ++ d.text)
  | duplicate name => "Error: Variable '" ++ Text.ofUnits name ++ "' is already declared!"
  | undeclared name => "Semantic Error: Variable '" ++ Text.ofUnits name ++ "' used but not declared."

end CompileError

end IntLang
