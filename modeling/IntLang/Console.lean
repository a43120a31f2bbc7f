import IntLang.Text.Blank
import IntLang.Text.Pieces

/-!
# Consoles

A console takes text on two streams and knows whether it shows styles. A style is switched on before
a text and off behind it, and also off before and on behind every line break in it.

* `Style.paint` is a text in a style;
* `Console.ok`, `Console.fail`, `Console.heading` and `Console.rule` are the lines that commands
  print.
-/

namespace IntLang

/-! ## Styles -/

inductive Style where
  | green | red | bold | dim
  deriving DecidableEq, Repr

namespace Style

/-- A control sequence of the terminal. -/
def sequence (code : String) : List Char := ("\x1b[" ++ code ++ "m").toList

def on : Style → List Char
  | green => sequence "32"
  | red => sequence "31"
  | bold => sequence "1"
  | dim => sequence "2"

def off : Style → List Char
  | green | red => sequence "39"
  | bold | dim => sequence "22"

/-- Where the text itself switches the style off, it is switched on again. The first `skip`
characters belong to a sequence already seen. -/
def resume (s : Style) (skip : Nat) : List Char → List Char
  | [] => []
  | c :: cs =>
    match skip with
    | skip + 1 => resume s skip cs
    | 0 =>
      if s.off.isPrefixOf (c :: cs) then s.off ++ s.on ++ resume s (s.off.length - 1) cs
      else c :: resume s 0 cs

/-- The style is off at every line break. -/
def lift (s : Style) : List Char → List Char
  | [] => []
  | '\r' :: '\n' :: cs => s.off ++ '\r' :: '\n' :: s.on ++ lift s cs
  | '\n' :: cs => s.off ++ '\n' :: s.on ++ lift s cs
  | c :: cs => c :: lift s cs

/-- A text in a style, if styles are shown. Nothing is switched for an empty text. -/
def paint (shown : Bool) (s : Style) (text : String) : String :=
  if shown ∧ text ≠ "" then String.ofList (s.on ++ s.lift (s.resume 0 text.toList) ++ s.off)
  else text

end Style

/-! ## Consoles -/

structure Console where
  color : Bool
  out : String
  err : String
  deriving DecidableEq, Repr

namespace Console

def empty (color : Bool) : Console := ⟨color, "", ""⟩

/-- Text on the first stream. -/
def write (c : Console) (text : String) : Console := { c with out := c.out ++ text }

def line (c : Console) (text : String) : Console := c.write (text ++ "\n")

/-- A line on the second stream. -/
def warn (c : Console) (text : String) : Console := { c with err := c.err ++ text ++ "\n" }

def paint (c : Console) (s : Style) (text : String) : String := s.paint c.color text

/-- Says what was done, and where. -/
def ok (c : Console) (what path : String) : Console :=
  c.line (c.paint .green "✓" ++ " " ++ what ++
    (if path = "" then "" else " " ++ c.paint .dim "→" ++ " " ++ c.paint .dim path))

/-- The lines of a failure's details: at most eight, without the blanks that end them all. -/
def detailLines (details : String) : List String :=
  if details = "" then [] else (Text.pieces '\n' (Text.trimEnd details)).take 8

def fail (c : Console) (message details : String) : Console :=
  (detailLines details).foldl (fun c detail => c.warn (c.paint .dim ("  " ++ detail)))
    (c.warn (c.paint .red "✗" ++ " " ++ message))

def heading (c : Console) (title : String) : Console :=
  c.line ("\n" ++ c.paint .bold ("--- " ++ title ++ " ---"))

def rule (c : Console) : Console := c.line "-------------------------"

end Console

end IntLang
