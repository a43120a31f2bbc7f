import IntLang.Proofs.Scanning.Tiles
import IntLang.Proofs.Syntax.Lookahead

/-!
# Scanning as far as is parsed

A text is parsed while it is scanned. All the same it gives what its tokens give that were scanned in
advance, and where these end in a lexical error, an error in front of it was found without looking
at what comes there.

* `parse_ofText_of_ok`: a text without a lexical error;
* `parse_ofText_of_error`: a text with one;
* **`parse_ofText_eq_lex`**: any text.
-/

namespace IntLang

theorem parse_ofText_of_ok {source : UnitText} {tokens : List Token} (h : lex source = .ok tokens)
    (scope : Scope) : parse (.ofText source) scope = parse (.ofTokens tokens) scope := by
  obtain ⟨ts, last, hp, rfl⟩ := lex_eq_ok.mp h
  obtain ⟨-, -, hlast⟩ := Cursor.tiles_pulls (.start source) [] rfl
  rw [hp] at hlast
  have hl : last.kind = .eof := congrArg Token.kind hlast
  obtain ⟨us, vs, a, scope', rfl, -, -, h⟩ := parse_settled hl ts scope
  have htext : TokenSource.ofText source = ⟨us.map .ok ++ vs.map .ok, last⟩ := by
    rw [TokenSource.ofText, hp, List.map_append]
  have htokens : TokenSource.ofTokens (us ++ vs ++ [last]) =
      ⟨us.map .ok ++ (vs ++ [last]).map .ok, TokenSource.endOf (us ++ vs ++ [last])⟩ := by
    rw [TokenSource.ofTokens, List.append_assoc, List.map_append]
  rw [htext, htokens, h last _ ⟨hl, fun _ => id⟩, h _ _ ⟨TokenSource.kind_endOf _, fun t ht => ?_⟩]
  -- the end token, which now is one of the pulls, is the same as behind them
  cases vs <;> exact ht

theorem parse_ofText_of_error {source : UnitText} {e : CompileError} {ts : List Token}
    {more : List Pull} (h : (Cursor.start source).pulls.1 = ts.map .ok ++ .error e :: more)
    (scope : Scope) :
    ∃ e', (parse (.ofText source) scope).1 = .error e' ∧
      (e' = e ∨ ∀ us, parse (.ofTokens (ts ++ us)) scope =
        (.error e', (parse (.ofText source) scope).2)) := by
  obtain ⟨htiles, -, hlast⟩ := Cursor.tiles_pulls (.start source) [] rfl
  rw [h] at htiles
  have hl : (Cursor.start source).pulls.2.kind = .eof := congrArg Token.kind hlast
  have htext : TokenSource.ofText source =
      ⟨ts.map .ok ++ .error e :: more, (Cursor.start source).pulls.2⟩ := by
    rw [TokenSource.ofText, ← h]
  rw [htext]
  obtain he | ⟨e', scope', hall⟩ := parse_faulty hl htiles.kind_ne_eof e more scope
  · exact ⟨e, he, .inl rfl⟩
  · rw [hall _ _ hl]
    refine ⟨e', rfl, .inr fun us => ?_⟩
    rw [TokenSource.ofTokens, List.map_append]
    exact hall _ _ (TokenSource.kind_endOf _)

/-- **A text is parsed as its tokens are.** A text that can be scanned gives what its tokens give, and
leaves the same scope. In a text that cannot, parsing fails: with the lexical error, or with an error
that its tokens in front of the lexical error have too, whatever tokens follow them, and with the same
scope left. -/
theorem parse_ofText_eq_lex (source : UnitText) (scope : Scope) :
    match lex source with
    | .ok tokens => parse (.ofText source) scope = parse (.ofTokens tokens) scope
    | .error e => ∃ ts more, (Cursor.start source).pulls.1 = ts.map .ok ++ .error e :: more ∧
      ∃ e', (parse (.ofText source) scope).1 = .error e' ∧
        (e' = e ∨ ∀ us, parse (.ofTokens (ts ++ us)) scope =
          (.error e', (parse (.ofText source) scope).2)) := by
  obtain ⟨ts, hp⟩ | ⟨ts, e, more, hp⟩ := Pull.ok_or_split (Cursor.start source).pulls.1
  · rw [lex_eq_ok.mpr ⟨ts, _, Prod.ext hp rfl, rfl⟩]
    exact parse_ofText_of_ok (lex_eq_ok.mpr ⟨ts, _, Prod.ext hp rfl, rfl⟩) scope
  · rw [lex_eq_error hp]
    exact ⟨ts, more, hp, parse_ofText_of_error hp scope⟩

end IntLang
