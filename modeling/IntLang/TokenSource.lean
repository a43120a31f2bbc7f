import IntLang.Cursor

/-!
# Token sources

A parser reads pulls from a source, one after another; behind the last one an end token is
delivered for ever.

* `TokenSource.ofText` scans as far as is pulled: a lexical error is one of the pulls;
* `TokenSource.ofTokens` delivers given tokens.
-/

namespace IntLang

structure TokenSource where
  pulls : List Pull
  last : Token
  deriving Repr

namespace TokenSource

def ofText (source : List CodeUnit) : TokenSource :=
  let (pulls, last) := (Cursor.start source).pulls
  ⟨pulls, last⟩

/-- The token behind the last of some tokens: that token itself if it ends the input, else an end
token directly behind its text. -/
def endOf (tokens : List Token) : Token :=
  match tokens.getLast? with
  | none => ⟨.eof, [], .start⟩
  | some t =>
    if t.kind = .eof then t else ⟨.eof, [], ⟨t.pos.line, t.pos.col + t.value.length⟩⟩

def ofTokens (tokens : List Token) : TokenSource := ⟨tokens.map .ok, endOf tokens⟩

/-- The next pull. -/
def peek (last : Token) : List Pull → Pull
  | [] => .ok last
  | pull :: _ => pull

def next (s : TokenSource) : Pull × TokenSource := (peek s.last s.pulls, ⟨s.pulls.tail, s.last⟩)

/-- The results of `n` pulls in a row. -/
def pull : Nat → TokenSource → List Pull
  | 0, _ => []
  | n + 1, s => s.next.1 :: pull n s.next.2

end TokenSource

end IntLang
