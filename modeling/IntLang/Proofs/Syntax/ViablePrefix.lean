import IntLang.Proofs.Syntax.Lookahead

/-!
# Unexpected tokens

The token that a syntax error names is the first that does not fit: what was pulled in front of it
begins a word of the grammar, and with it begins none.

* `Pulled`: the pulls that parsing makes;
* `Refused`: a token is unexpected behind others, as `exists_refused` finds it behind a syntax error;
* `Refused.not_derives`: no word goes on with it;
* `Refused.pulled_iff`: it is the last token pulled;
* **`viablePrefix_of_unexpected`**: it is the first that does not fit.
-/

namespace IntLang

/-! ## Pulls that are made -/

namespace TokenSource

/-- The source with an error in place of the pull `n` and those behind it. -/
def failAt (s : TokenSource) (n : Nat) (e : CompileError) : TokenSource :=
  ⟨s.pull n ++ [.error e], s.last⟩

theorem pull_append (front rest : List Pull) (last : Token) (n : Nat) :
    (TokenSource.mk (front ++ rest) last).pull (front.length + n) =
      front ++ (TokenSource.mk rest last).pull n := by
  induction front with
  | nil => rw [List.length_nil, Nat.zero_add, List.nil_append, List.nil_append]
  | cons pull front ih =>
    rw [List.length_cons, Nat.add_right_comm, TokenSource.pull, List.cons_append, List.cons_append]
    exact congrArg (pull :: ·) ih

theorem pull_ofTokens_append (us vs : List Token) (n : Nat) :
    (ofTokens (us ++ vs)).pull (us.length + n) =
      us.map .ok ++ (TokenSource.mk (vs.map .ok) (endOf (us ++ vs))).pull n := by
  have h := pull_append (us.map .ok) (vs.map .ok) (endOf (us ++ vs)) n
  rwa [List.length_map, ← List.map_append] at h

end TokenSource

/-- Parsing makes the pull `n`: whatever error stands there, it is raised. -/
def Pulled (s : TokenSource) (scope : Scope) (n : Nat) : Prop :=
  ∀ e, (parse (s.failAt n e) scope).1 = .error e

/-! ## Derived tokens -/

namespace Token

/-- A token of a kind, without text. -/
def ofKind (kind : TokenKind) : Token := ⟨kind, [], .start⟩

theorem map_kind_ofKind (kinds : List TokenKind) : (kinds.map ofKind).map kind = kinds := by
  rw [List.map_map]
  exact List.map_id kinds

theorem kinds_append {us vs : List Token} (hus : ∀ u ∈ us, u.kind ≠ .eof) (hvs : Ended vs) :
    kinds (us ++ vs) = us.map kind := by
  have hu : .eof ∉ us.map kind := by
    intro h
    obtain ⟨u, hu, hk⟩ := List.mem_map.mp h
    exact hus u hu hk
  rw [← map_kind_words, words_append hu hvs, List.map_map]
  rfl

end Token

/-- Derived tokens have no syntax error. -/
theorem parse_ne_unexpected (ts : List Token) (h : Derives .statements (Token.kinds ts))
    (scope : Scope) (t : Token) (d : Option Detail) :
    (parse (.ofTokens ts) scope).1 ≠ .error (.unexpected t d) := by
  obtain ⟨program, hr⟩ := h.read_ofTokens
  rw [parse_of_read hr]
  rcases hw : program.walk scope with ⟨_ | refusal, s'⟩
  · simp
  · obtain ⟨name, rfl | rfl⟩ := Scope.replay_refusal hw <;> simp

theorem Token.kinds_of_derives {ts : List Token} {n : Nonterminal}
    (h : Derives n (ts.map Token.kind)) : kinds ts = ts.map Token.kind := by
  have hts : ∀ t ∈ ts, t.kind ≠ .eof := fun t ht hk => h.eof_notMem (hk ▸ List.mem_map_of_mem ht)
  have he : Ended [] := by rintro _ ⟨⟩
  have hk := kinds_append hts he
  rwa [List.append_nil] at hk

/-! ## Unexpected tokens -/

/-- Behind these tokens, which begin a word of the grammar, a token is unexpected, whatever stands behind
it. -/
structure Refused (us : List Token) (scope : Scope) (t : Token) (d : Option Detail) : Prop where
  notEnded : ∀ u ∈ us, u.kind ≠ .eof
  begins : ∃ kinds, Derives .statements (us.map Token.kind ++ kinds)
  parse_eq : ∀ last rest, last.kind = .eof → TokenSource.peek last rest = .ok t →
    (parse ⟨us.map .ok ++ rest, last⟩ scope).1 = .error (.unexpected t d)

variable {ts us vs : List Token} {scope : Scope} {t : Token} {d : Option Detail}

theorem exists_refused (h : (parse (.ofTokens ts) scope).1 = .error (.unexpected t d)) :
    ∃ us vs, ts = us ++ vs ∧ TokenSource.peek (TokenSource.endOf ts) (vs.map .ok) = .ok t ∧
      Refused us scope t d := by
  have hl := TokenSource.kind_endOf ts
  obtain ⟨us, vs, a, scope', hts, hus, hf, hs⟩ := parse_settled hl ts scope
  have ha := hs _ _ ⟨hl, fun _ => id⟩
  rw [← List.map_append, ← hts] at ha
  rw [TokenSource.ofTokens, ha] at h
  obtain rfl : a = .error (.unexpected t d) := h
  refine ⟨us, vs, hts, hf.1, hus, hf.2, fun last rest hl' hp => ?_⟩
  rw [hs last rest ⟨hl', fun u hu => ?_⟩]
  rw [hp, ← hf.1, hu]

namespace Refused

theorem parse_ofTokens (h : Refused us scope t d) (vs : List Token) :
    (parse (.ofTokens (us ++ t :: vs)) scope).1 = .error (.unexpected t d) := by
  rw [TokenSource.ofTokens, List.map_append]
  exact h.parse_eq _ _ (TokenSource.kind_endOf _) rfl

/-- No word of the grammar goes on with the token. -/
theorem not_derives (h : Refused us scope t d) (kinds : List TokenKind) :
    ¬ Derives .statements (us.map Token.kind ++ t.kind :: kinds) := by
  intro hd
  have hk : (us ++ t :: kinds.map .ofKind).map Token.kind = us.map Token.kind ++ t.kind :: kinds := by
    rw [List.map_append, List.map_cons, Token.map_kind_ofKind]
  rw [← hk] at hd
  exact parse_ne_unexpected _ (Token.kinds_of_derives hd ▸ hd) scope t d (h.parse_ofTokens _)

/-- If the token is the end of input, those in front of it are no word. -/
theorem not_derives_of_eof (h : Refused us scope t d) (ht : t.kind = .eof) :
    ¬ Derives .statements (us.map Token.kind) := by
  intro hd
  have hk : Token.kinds (us ++ [t]) = us.map Token.kind :=
    Token.kinds_append h.notEnded (by rintro _ ⟨⟩; exact ht)
  exact parse_ne_unexpected _ (hk ▸ hd) scope t d (h.parse_ofTokens [])

/-- An error in place of a token in front is raised. Nothing else can be: the tokens from there on could
be those of a word, and then no token is unexpected. -/
theorem pulled {front back : List Token} (h : Refused (front ++ back) scope t d)
    (hp : TokenSource.peek (TokenSource.endOf (front ++ back ++ vs)) (vs.map .ok) = .ok t) :
    Pulled (.ofTokens (front ++ back ++ vs)) scope front.length := by
  intro e
  have hl := TokenSource.kind_endOf (front ++ back ++ vs)
  have hpull := TokenSource.pull_ofTokens_append front (back ++ vs) 0
  rw [TokenSource.pull, List.append_nil, Nat.add_zero, ← List.append_assoc] at hpull
  rw [TokenSource.failAt, hpull]
  have hf : ∀ u ∈ front, u.kind ≠ .eof := fun u hu => h.notEnded u (List.mem_append_left _ hu)
  obtain he | ⟨e', scope', hall⟩ := parse_faulty hl hf e [] scope
  · exact he
  · have he := congrArg Prod.fst (hall (back.map .ok ++ vs.map .ok) _ hl)
    rw [← List.append_assoc, ← List.map_append, h.parse_eq _ _ hl hp] at he
    obtain ⟨kinds, hd⟩ := h.begins
    have hk : (front ++ (back ++ kinds.map Token.ofKind)).map Token.kind =
        (front ++ back).map Token.kind ++ kinds := by
      rw [← List.append_assoc, List.map_append, Token.map_kind_ofKind]
    rw [← hk] at hd
    refine absurd ?_ (parse_ne_unexpected _ (Token.kinds_of_derives hd ▸ hd) scope t d)
    rw [TokenSource.ofTokens, List.map_append, hall _ _ (TokenSource.kind_endOf _)]
    exact he.symm

/-- An error behind the token is not raised. -/
theorem not_pulled (h : Refused us scope t d)
    (hp : TokenSource.peek (TokenSource.endOf (us ++ vs)) (vs.map .ok) = .ok t) (n : Nat) :
    ¬ Pulled (.ofTokens (us ++ vs)) scope (us.length + (n + 1)) := by
  intro hn
  have he := hn (.duplicate "")
  rw [TokenSource.failAt, TokenSource.pull_ofTokens_append, TokenSource.pull, TokenSource.next, hp,
    List.append_assoc] at he
  cases he.symm.trans (h.parse_eq _ _ (TokenSource.kind_endOf _) rfl)

/-- Parsing pulls up to the token. -/
theorem pulled_iff (h : Refused us scope t d)
    (hp : TokenSource.peek (TokenSource.endOf (us ++ vs)) (vs.map .ok) = .ok t) (n : Nat) :
    Pulled (.ofTokens (us ++ vs)) scope n ↔ n ≤ us.length := by
  constructor
  · intro hn
    by_contra hlt
    obtain ⟨m, rfl⟩ := Nat.exists_eq_add_of_lt (Nat.lt_of_not_le hlt)
    exact h.not_pulled hp m hn
  · intro hn
    obtain ⟨front, back, rfl, rfl⟩ : ∃ front back, us = front ++ back ∧ front.length = n :=
      ⟨us.take n, us.drop n, (List.take_append_drop n us).symm, List.length_take_of_le hn⟩
    exact h.pulled hp

end Refused

/-- **A syntax error names the first token that does not fit.** It is the last token that was pulled.
Those in front of it begin a word of the grammar, but none that goes on with this token; if it is the
end of input, they are no word themselves. -/
theorem viablePrefix_of_unexpected {ts : List Token} {scope : Scope} {t : Token} {d : Option Detail}
    (h : (parse (.ofTokens ts) scope).1 = .error (.unexpected t d)) :
    ∃ k, (∀ n, Pulled (.ofTokens ts) scope n ↔ n ≤ k) ∧
      (TokenSource.ofTokens ts).pull (k + 1) = (ts.take k).map .ok ++ [.ok t] ∧
      (∃ kinds, Derives .statements ((ts.take k).map Token.kind ++ kinds)) ∧
      (t.kind ≠ .eof → ∀ kinds, ¬ Derives .statements ((ts.take k).map Token.kind ++ t.kind :: kinds)) ∧
      (t.kind = .eof → ¬ Derives .statements ((ts.take k).map Token.kind)) := by
  obtain ⟨us, vs, rfl, hp, hr⟩ := exists_refused h
  refine ⟨us.length, hr.pulled_iff hp, ?_, ?_⟩
  · rw [TokenSource.pull_ofTokens_append, TokenSource.pull, TokenSource.next, hp, List.take_left]
    rfl
  · rw [List.take_left]
    exact ⟨hr.begins, fun _ => hr.not_derives, hr.not_derives_of_eof⟩

/-- The tokens of `int x 1`. -/
def strayNumber : List Token := [.ofKind .int, .ofKind .ident, .ofKind .number]

/-- The number is pulled last, and no word goes on with it. -/
theorem viablePrefix_strayNumber :
    ∃ k, (∀ n, Pulled (.ofTokens strayNumber) .empty n ↔ n ≤ k) ∧
      ∀ kinds, ¬ Derives .statements ((strayNumber.take k).map Token.kind ++ .number :: kinds) := by
  have hm : (parse (.ofTokens strayNumber) .empty).1.map (fun _ => ()) =
      .error (.unexpected (.ofKind .number) (some (.expected .semi))) := by
    decide +kernel
  have h : (parse (.ofTokens strayNumber) .empty).1 =
      .error (.unexpected (.ofKind .number) (some (.expected .semi))) := by
    cases hp : (parse (.ofTokens strayNumber) .empty).1 with
    | ok program =>
      rw [hp] at hm
      cases hm
    | error e =>
      rw [hp] at hm
      cases hm
      rfl
  obtain ⟨k, hk, -, -, hne, -⟩ := viablePrefix_of_unexpected h
  exact ⟨k, hk, hne (by decide)⟩

end IntLang
