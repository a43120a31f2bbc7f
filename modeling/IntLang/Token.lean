import IntLang.Text.Blank

/-!
# Tokens

A token is a kind, the units it was written with, and the place of its first unit.

* `TokenKind.name` is the name under which tokens are exchanged, `TokenKind.ofName?` its inverse;
* `Position.advance` moves a place over text: a line feed starts a new line.
-/

namespace IntLang

/-! ## Kinds -/

inductive TokenKind where
  | int | print | ifWord | elseWord
  | ident | number | string
  | assign | eq | ne | lt | gt | le | ge
  | plus | minus | star | slash
  | semi | lparen | rparen | lbrace | rbrace
  /-- A unit that starts no token. -/
  | invalid
  /-- End of input. -/
  | eof
  deriving DecidableEq, Repr

namespace TokenKind

def all : List TokenKind :=
  [int, print, ifWord, elseWord, ident, number, string, assign, eq, ne, lt, gt, le, ge, plus, minus,
    star, slash, semi, lparen, rparen, lbrace, rbrace, invalid, eof]

def name : TokenKind → String
  | int => "INT"
  | print => "PRINT"
  | ifWord => "IF"
  | elseWord => "ELSE"
  | ident => "ID"
  | number => "NUMBER"
  | string => "STRING"
  | assign => "ASSIGN"
  | eq => "EQ"
  | ne => "NEQ"
  | lt => "LT"
  | gt => "GT"
  | le => "LTE"
  | ge => "GTE"
  | plus => "PLUS"
  | minus => "MINUS"
  | star => "STAR"
  | slash => "SLASH"
  | semi => "SEMI"
  | lparen => "LPAREN"
  | rparen => "RPAREN"
  | lbrace => "LBRACE"
  | rbrace => "RBRACE"
  | invalid => "INVALID"
  | eof => "EOF"

def ofName? (s : String) : Option TokenKind := all.find? fun k => k.name == s

/-- How a message names a token that was expected. -/
def spelling : TokenKind → String
  | ident => "identifier"
  | eof => "end of input"
  | assign => "\"=\""
  | semi => "\";\""
  | lparen => "\"(\""
  | rparen => "\")\""
  | lbrace => "\"\x7b\""
  | rbrace => "\"\x7d\""
  | k => k.name

end TokenKind

/-! ## Places -/

/-- Lines and columns of a text count from one; columns count units. Tokens that come from elsewhere
may stand anywhere. -/
structure Position where
  line : Int
  col : Int
  deriving DecidableEq, Repr

namespace Position

def start : Position := ⟨1, 1⟩

/-- The place behind one unit. -/
def step (p : Position) (u : CodeUnit) : Position :=
  if u = unit '\n' then ⟨p.line + 1, 1⟩ else ⟨p.line, p.col + 1⟩

/-- The place behind some units. -/
def advance (p : Position) (us : List CodeUnit) : Position := us.foldl step p

@[simp] theorem advance_nil (p : Position) : p.advance [] = p := rfl

@[simp] theorem advance_append (p : Position) (us vs : List CodeUnit) :
    p.advance (us ++ vs) = (p.advance us).advance vs := List.foldl_append

end Position

/-! ## Tokens -/

structure Token where
  kind : TokenKind
  value : List CodeUnit
  pos : Position
  deriving DecidableEq, Repr

namespace Token

def text (t : Token) : String := Text.ofUnits t.value

/-- The number that a number token denotes. -/
def int? (t : Token) : Option Int := Text.leadingInt? t.value

end Token

end IntLang
