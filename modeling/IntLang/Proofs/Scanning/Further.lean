import IntLang.Proofs.Scanning.LineFeed

/-!
# Texts further down

A line feed puts the scanner back to where it started, some lines further down. So a text behind a line
feed has the tokens and the errors that it has alone, at the same columns.

* `Position.below`, `Token.below`, `CompileError.below`: the same some lines further down;
* `Cursor.pulls_below`: what is pulled from there;
* `Pull.mapM_below`: the first error among them, or the tokens;
* `Cursor.pulls_lineFeed`, **`lex_lineFeed`**: two texts with a line feed between them.
-/

namespace IntLang

open CodeUnit

/-! ## Further down -/

def Position.below (p : Position) (n : Nat) : Position := ⟨p.line + n, p.col⟩

def Token.below (t : Token) (n : Nat) : Token := { t with pos := t.pos.below n }

def CompileError.below (e : CompileError) (n : Nat) : CompileError :=
  match e with
  | .unexpected t detail => .unexpected (t.below n) detail
  | .duplicate name => .duplicate name
  | .undeclared name => .undeclared name

def Pull.below (pull : Pull) (n : Nat) : Pull :=
  match pull with
  | .ok t => .ok (t.below n)
  | .error e => .error (e.below n)

namespace Position

theorem step_below (p : Position) (n : Nat) (u : CodeUnit) :
    (p.below n).step u = (p.step u).below n := by
  unfold step below
  split
  · rw [Int.add_right_comm]
  · rfl

theorem advance_below (p : Position) (n : Nat) (us : UnitText) :
    (p.below n).advance us = (p.advance us).below n := by
  induction us generalizing p with
  | nil => rfl
  | cons u us ih =>
    change ((p.below n).step u).advance us = _
    rw [step_below, ih]
    rfl

/-- Behind a line feed, a line starts. -/
theorem advance_lineFeed (us : UnitText) :
    start.advance (us ++ [unit '\n']) = start.below (us.count (unit '\n') + 1) := by
  have hn : ¬ decide (unit '\n' ≠ unit '\n') = true := by decide
  refine (advance_behind [] (us ++ [unit '\n'])).trans ?_
  rw [List.nil_append, behind, List.count_append, List.count_singleton_self, List.rtakeWhile_concat,
    if_neg hn]
  rfl

end Position

/-! ## Pulls -/

namespace Cursor

def below (c : Cursor) (n : Nat) : Cursor := ⟨c.rest, c.pos.below n⟩

theorem skip_below (c : Cursor) (n k : Nat) : (c.below n).skip k = (c.skip k).below n := by
  rw [skip, below, Position.advance_below]
  rfl

theorem skipTrivia_below (c : Cursor) (n : Nat) : (c.below n).skipTrivia = c.skipTrivia.below n :=
  skip_below c n _

theorem take_below (c : Cursor) (n : Nat) :
    (c.below n).take = (c.take.1.below n, c.take.2.below n) := by
  obtain ⟨_ | ⟨u, us⟩, pos⟩ := c
  · rfl
  · simp only [take, below]
    refine Prod.ext ?_ (skip_below ⟨u :: us, pos⟩ n _)
    cases (Lexeme.read u us).fault with
    | none => rfl
    | some d => rfl

/-- One pull further down. -/
theorem next_below (c : Cursor) (n : Nat) :
    (c.below n).next = (c.next.1.below n, c.next.2.below n) := by
  rw [next, skipTrivia_below, take_below]
  rfl

/-- **All pulls further down.** -/
theorem pulls_below (c : Cursor) (n : Nat) :
    (c.below n).pulls = (c.pulls.1.map (Pull.below · n), c.pulls.2.below n) := by
  have hs := skipTrivia_below c n
  rw [pulls, pulls.eq_1 c]
  by_cases h : c.skipTrivia.rest = []
  · rw [dif_pos (hs ▸ h), dif_pos h, hs]
    rfl
  · have hlt := next_length_lt h
    rw [dif_neg (hs ▸ h), dif_neg h, next_below, pulls_below c.next.2 n]
    rfl
termination_by c.rest.length

/-- **Behind a line feed**, a text is pulled as if it stood alone, but further down. -/
theorem pulls_lineFeed (us vs : UnitText) :
    let n := us.count (unit '\n') + 1
    (start (us ++ unit '\n' :: vs)).pulls =
      ((start us).pulls.1 ++ (start vs).pulls.1.map (Pull.below · n), (start vs).pulls.2.below n) := by
  have further : (start us).behind vs = (start vs).below (us.count (unit '\n') + 1) := by
    rw [behind, start, Position.advance_lineFeed]
    rfl
  have pulled := pulls_before (start us) vs
  rw [further, pulls_below] at pulled
  exact pulled

end Cursor

/-! ## Tokens -/

/-- The first error, or all tokens, further down. -/
theorem Pull.mapM_below (pulls : List Pull) (n : Nat) :
    ((pulls.map (Pull.below · n)).mapM id : Except CompileError (List Token)) =
      match (pulls.mapM id : Except CompileError (List Token)) with
      | .error e => .error (e.below n)
      | .ok ts => .ok (ts.map (Token.below · n)) := by
  induction pulls with
  | nil => rfl
  | cons pull pulls ih =>
    cases pull with
    | error e => rfl
    | ok t =>
      rw [List.map_cons, List.mapM_cons, List.mapM_cons, ih]
      cases pulls.mapM id <;> rfl

/-- The tokens of a text without its end are those in front of the last one. -/
theorem filter_of_pulls {us : UnitText} {ts : List Token} {last : Token}
    (h : (Cursor.start us).pulls = (ts.map .ok, last)) : (ts ++ [last]).filter (·.kind ≠ .eof) = ts := by
  obtain ⟨tiles, -, hl⟩ := Cursor.tiles_pulls (.start us) [] rfl
  rw [h] at tiles hl
  rw [← List.append_nil (ts.map _)] at tiles
  have front : ts.filter (·.kind ≠ .eof) = ts :=
    List.filter_eq_self.mpr fun t ht => decide_eq_true (tiles.kind_ne_eof t ht)
  rw [List.filter_append, front, show last = _ from hl]
  exact List.append_nil ts

/-- **A line feed puts the scanner back.** Two texts with a line feed between them have the tokens of the
one without its end, and behind them those of the other, as many lines further down as the one has line
feeds and one more, at the same columns. An error of the one stays as it is; otherwise one of the other
moves down with its token. -/
theorem lex_lineFeed (us vs : UnitText) :
    let n := us.count (unit '\n') + 1
    lex (us ++ unit '\n' :: vs) =
      match lex us, lex vs with
      | .error e, _ => .error e
      | .ok _, .error e => .error (e.below n)
      | .ok before, .ok behind =>
        .ok (before.filter (·.kind ≠ .eof) ++ behind.map (Token.below · n)) := by
  intro n
  have joined := Cursor.pulls_lineFeed us vs
  dsimp only at joined
  unfold lex
  rw [joined]
  rcases hu : (Cursor.start us).pulls with ⟨pulls, last⟩
  rcases hv : (Cursor.start vs).pulls with ⟨pulls', last'⟩
  dsimp only
  rw [List.mapM_append, Pull.mapM_below]
  cases hp : pulls.mapM id with
  | error e => rfl
  | ok ts =>
    cases pulls'.mapM id with
    | error e => rfl
    | ok ts' =>
      have front : (ts ++ [last]).filter (·.kind ≠ .eof) = ts :=
        filter_of_pulls (by rw [hu, mapM_id_eq_ok.mp hp])
      have tokens : (ts ++ ts'.map (Token.below · n)) ++ [last'.below n] =
          (ts ++ [last]).filter (·.kind ≠ .eof) ++ (ts' ++ [last']).map (Token.below · n) := by
        rw [front, List.map_append, List.append_assoc]
        rfl
      exact congrArg Except.ok tokens

end IntLang
