import IntLang.Parse.Expression

/-!
# Reading statements

```
statements := { statement }
statement  := "int" name [ "=" expression ] ";"
            | "print" "(" ( string | expression ) ")" ";"
            | "if" "(" expression ")" block [ "else" block ]
            | expression ";"
block      := "{" statements "}"
```

A name is declared where its declaration is complete, behind the semicolon.

* `Parse.statements` reads up to a closing token or the end of input;
* `parse` reads a whole source in a scope, `TokenSource.read` only its syntax.
-/

namespace IntLang

namespace Parse

variable {σ : Type} (check : NameCheck σ) (last : Token)

/-- A declaration, behind its first word. -/
def declaration (pulls : List Pull) : Reading σ pulls.length Node :=
  (eat last .ident pulls).bind fun name r _ =>
  look last r fun next =>
    if next.kind = .assign then
      (eat last .assign r).bind fun _ r _ =>
      (expression check last r).bind fun value r _ =>
      ((eat last .semi r).map fun _ => .declare name.value (some value)).followed check
        (.declares name.value)
    else
      ((eat last .semi r).map fun _ => .declare name.value none).followed check
        (.declares name.value)

/-- A print statement, behind its first word. -/
def printing (pulls : List Pull) : Reading σ pulls.length Node :=
  (eat last .lparen pulls).bind fun _ r _ =>
  look last r fun next =>
    if next.kind = .string then
      (eat last .string r).bind fun text r _ =>
      (eat last .rparen r).bind fun _ r _ =>
      (eat last .semi r).map fun _ => .printText text.value
    else
      (expression check last r).bind fun value r _ =>
      (eat last .rparen r).bind fun _ r _ =>
      (eat last .semi r).map fun _ => .print value

mutual

def statement (pulls : List Pull) : Reading σ pulls.length Node :=
  match pulls with
  | [] => .fail (.unexpected last none)
  | .error e :: _ => .fail e
  | .ok t :: rest =>
    match t.kind with
    | .int => (declaration check last rest).loose
    | .print => (printing check last rest).loose
    | .ifWord =>
      ((eat last .lparen rest).bind fun _ r _ =>
        (expression check last r).bind fun condition r _ =>
        (eat last .rparen r).bind fun _ r _ =>
        (block r).andThen fun yes r _ =>
        look last r fun next =>
          if next.kind = .elseWord then
            ((eat last .elseWord r).bind fun _ r _ =>
              (block r).map fun no => .branch condition yes (some no)).loose
          else .stay (.branch condition yes none) r).loose
    | _ =>
      (expression check last (.ok t :: rest)).bind fun e r _ =>
      (eat last .semi r).map fun _ => e
termination_by 2 * pulls.length
decreasing_by all_goals (simp only [List.length_cons]; omega)

def block (pulls : List Pull) : Reading σ pulls.length (List Node) :=
  (eat last .lbrace pulls).bind fun _ r _ =>
  (statements .rbrace r).finish fun body r _ =>
  (eat last .rbrace r).map fun _ => body
termination_by 2 * pulls.length
decreasing_by all_goals omega

def statements (close : TokenKind) (pulls : List Pull) : Reading σ (pulls.length + 1) (List Node) :=
  match pulls with
  | [] => .stay [] []
  | .error e :: _ => .fail e
  | .ok t :: rest =>
    if t.kind = close ∨ t.kind = .eof then .stay [] (.ok t :: rest)
    else
      ((statement (.ok t :: rest)).andThen fun s r _ =>
        (statements close r).map fun more => s :: more).loose
termination_by 2 * pulls.length + 1
decreasing_by all_goals (simp only [List.length_cons] at *; omega)

end

/-- A whole source. -/
def program (pulls : List Pull) : Reading σ (pulls.length + 1) Program :=
  statements check last .eof pulls

end Parse

/-! ## Programs -/

/-- The program of a source whose names go unchecked. -/
def TokenSource.read (source : TokenSource) : Except CompileError Program :=
  (Parse.program .silent source.last source.pulls ()).outcome.map Prod.fst

/-- The program of a source in a scope, and the scope behind it. Names are checked on the way, so the
first of all errors counts, and the scope holds what was declared before it. -/
def parse (source : TokenSource) (scope : Scope) : Except CompileError Program × Scope :=
  let reached := Parse.program Scope.apply source.last source.pulls scope
  (reached.outcome.map Prod.fst, reached.known)

end IntLang
