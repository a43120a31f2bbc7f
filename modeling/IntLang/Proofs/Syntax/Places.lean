import IntLang.Proofs.Reading.Alike

/-!
# Places have no say in what is parsed

Pulls that differ in places only are read alike by every parser: the same program and the same names,
or the same error about a token with the same word.

* `Parse.alike_program` says so of the parser of programs;
* **`parse_alike`**: of whole sources.
-/

namespace IntLang

namespace Parse

open Reading

variable {σ : Type} {check : NameCheck σ} {last last' : Token}

/-! ## Expressions -/

mutual

theorem alike_chain (hl : last.word = last'.word) : ∀ pulls pulls', Pulls.Alike pulls pulls' →
    Reading.Alike Eq (chain check last pulls) (chain check last' pulls')
  | [], _, h => by
    obtain rfl := List.forall₂_nil_left_iff.mp h
    unfold chain
    exact .fail (.unexpected hl _)
  | .error e :: _, _, h => by
    obtain ⟨e', _, rfl, he, _⟩ := h.fault
    unfold chain
    exact .fail he
  | .ok t :: pulls, _, h => by
    obtain ⟨t', pulls', rfl, ht, hr⟩ := h.token
    unfold chain
    simp only [Token.kind_eq_of_word ht, Token.value_eq_of_word ht]
    split
    · exact ((alike_chain hl pulls pulls' hr).map (by rintro c _ rfl; rfl)).loose
    · exact alike_tail hl _ pulls pulls' hr
    · refine alike_look hl hr fun next next' hn => ?_
      rw [Token.kind_eq_of_word hn]
      split
      · refine ((alike_eat .assign hl hr).bind fun _ _ r r' _ _ _ h => ?_).loose
        exact .followed ((alike_chain hl r r' h).map (by rintro c _ rfl; rfl))
      · exact .after (alike_tail hl _ pulls pulls' hr)
    · refine ((alike_chain hl pulls pulls' hr).bind ?_).loose
      rintro c _ r r' _ _ rfl h
      exact (alike_eat .rparen hl h).andThen fun _ _ r r' _ _ _ h => alike_tail hl _ r r' h
    · exact .fail (.unexpected ht _)
termination_by pulls => pulls.length

theorem alike_tail (hl : last.word = last'.word) (operand : Node) : ∀ pulls pulls',
    Pulls.Alike pulls pulls' →
    Reading.Alike Eq (tail check last operand pulls) (tail check last' operand pulls')
  | [], _, h => by
    obtain rfl := List.forall₂_nil_left_iff.mp h
    unfold tail
    exact .stay rfl .nil
  | .error e :: _, _, h => by
    obtain ⟨e', _, rfl, he, _⟩ := h.fault
    unfold tail
    exact .fail he
  | .ok t :: pulls, _, h => by
    obtain ⟨t', pulls', rfl, ht, hr⟩ := h.token
    unfold tail
    simp only [Token.kind_eq_of_word ht]
    split
    · exact ((alike_chain hl pulls pulls' hr).map (by rintro c _ rfl; rfl)).loose.loose
    · exact .stay rfl (.cons (.token ht) hr)
termination_by pulls => pulls.length

end

theorem alike_expression (hl : last.word = last'.word) {pulls pulls' : List Pull}
    (h : Pulls.Alike pulls pulls') :
    Reading.Alike Eq (expression check last pulls) (expression check last' pulls') :=
  (alike_chain hl pulls pulls' h).map fun _ _ => congrArg Chain.tree

/-! ## Statements -/

theorem alike_declaration (hl : last.word = last'.word) {pulls pulls' : List Pull}
    (h : Pulls.Alike pulls pulls') :
    Reading.Alike Eq (declaration check last pulls) (declaration check last' pulls') := by
  refine (alike_eat .ident hl h).bind fun n n' r r' _ _ (hn : n.word = n'.word) h => ?_
  rw [Token.value_eq_of_word hn]
  refine alike_look hl h fun next next' hnext => ?_
  rw [Token.kind_eq_of_word hnext]
  split
  · refine (alike_eat .assign hl h).bind fun _ _ r r' _ _ _ h => ?_
    refine (alike_expression hl h).bind ?_
    rintro value _ r r' _ _ rfl h
    exact .followed ((alike_eat .semi hl h).map fun _ _ _ => rfl)
  · exact .followed ((alike_eat .semi hl h).map fun _ _ _ => rfl)

theorem alike_printing (hl : last.word = last'.word) {pulls pulls' : List Pull}
    (h : Pulls.Alike pulls pulls') :
    Reading.Alike Eq (printing check last pulls) (printing check last' pulls') := by
  refine (alike_eat .lparen hl h).bind fun _ _ r r' _ _ _ h => ?_
  refine alike_look hl h fun next next' hnext => ?_
  rw [Token.kind_eq_of_word hnext]
  split
  · refine (alike_eat .string hl h).bind fun t t' r r' _ _ (ht : t.word = t'.word) h => ?_
    rw [Token.value_eq_of_word ht]
    refine (alike_eat .rparen hl h).bind fun _ _ r r' _ _ _ h => ?_
    exact (alike_eat .semi hl h).map fun _ _ _ => rfl
  · refine (alike_expression hl h).bind ?_
    rintro value _ r r' _ _ rfl h
    refine (alike_eat .rparen hl h).bind fun _ _ r r' _ _ _ h => ?_
    exact (alike_eat .semi hl h).map fun _ _ _ => rfl

mutual

theorem alike_statement (hl : last.word = last'.word) : ∀ pulls pulls', Pulls.Alike pulls pulls' →
    Reading.Alike Eq (statement check last pulls) (statement check last' pulls')
  | [], _, h => by
    obtain rfl := List.forall₂_nil_left_iff.mp h
    unfold statement
    exact .fail (.unexpected hl _)
  | .error e :: _, _, h => by
    obtain ⟨e', _, rfl, he, _⟩ := h.fault
    unfold statement
    exact .fail he
  | .ok t :: pulls, _, h => by
    obtain ⟨t', pulls', rfl, ht, hr⟩ := h.token
    unfold statement
    simp only [Token.kind_eq_of_word ht]
    split
    · exact (alike_declaration hl hr).loose
    · exact (alike_printing hl hr).loose
    · refine ((alike_eat .lparen hl hr).bind fun _ _ r r' _ _ _ h => ?_).loose
      refine (alike_expression hl h).bind ?_
      rintro condition _ r r' _ _ rfl h
      refine (alike_eat .rparen hl h).bind fun _ _ r r' _ _ _ h => ?_
      refine (alike_block hl r r' h).andThen ?_
      rintro yes _ r r' _ _ rfl h
      refine alike_look hl h fun next next' hnext => ?_
      rw [Token.kind_eq_of_word hnext]
      split
      · refine ((alike_eat .elseWord hl h).bind fun _ _ r r' _ _ _ h => ?_).loose
        exact (alike_block hl r r' h).map (by rintro no _ rfl; rfl)
      · exact .stay rfl h
    · refine (alike_expression hl (.cons (.token ht) hr)).bind ?_
      rintro e _ r r' _ _ rfl h
      exact (alike_eat .semi hl h).map fun _ _ _ => rfl
termination_by pulls => 2 * pulls.length

theorem alike_block (hl : last.word = last'.word) : ∀ pulls pulls', Pulls.Alike pulls pulls' →
    Reading.Alike Eq (block check last pulls) (block check last' pulls')
  | pulls, pulls', h => by
    unfold block
    refine (alike_eat .lbrace hl h).bind fun _ _ r r' _ _ _ h => ?_
    refine (alike_statements hl .rbrace r r' h).finish ?_
    rintro body _ r r' _ _ rfl h
    exact (alike_eat .rbrace hl h).map fun _ _ _ => rfl
termination_by pulls => 2 * pulls.length

theorem alike_statements (hl : last.word = last'.word) (close : TokenKind) :
    ∀ pulls pulls', Pulls.Alike pulls pulls' →
    Reading.Alike Eq (statements check last close pulls) (statements check last' close pulls')
  | [], _, h => by
    obtain rfl := List.forall₂_nil_left_iff.mp h
    unfold statements
    exact .stay rfl .nil
  | .error e :: _, _, h => by
    obtain ⟨e', _, rfl, he, _⟩ := h.fault
    unfold statements
    exact .fail he
  | .ok t :: pulls, _, h => by
    obtain ⟨t', pulls', rfl, ht, hr⟩ := h.token
    unfold statements
    simp only [Token.kind_eq_of_word ht]
    split
    · exact .stay rfl (.cons (.token ht) hr)
    · refine ((alike_statement hl _ _ (.cons (.token ht) hr)).andThen ?_).loose
      rintro node _ r r' _ _ rfl h
      exact (alike_statements hl close r r' h).map (by rintro more _ rfl; rfl)
termination_by pulls => 2 * pulls.length + 1
decreasing_by all_goals (simp only [List.length_cons] at *; omega)

end

theorem alike_program (hl : last.word = last'.word) {pulls pulls' : List Pull}
    (h : Pulls.Alike pulls pulls') :
    Reading.Alike Eq (program check last pulls) (program check last' pulls') :=
  alike_statements hl .eof pulls pulls' h

end Parse

/-! ## Sources -/

/-- The same result, or the same error about a token with the same word. -/
inductive Outcome.Alike {α : Type} : Except CompileError α → Except CompileError α → Prop
  | ok (a : α) : Alike (.ok a) (.ok a)
  | error {e e' : CompileError} (h : e.Alike e') : Alike (.error e) (.error e')

/-- **Sources that differ in places only are parsed alike**, and leave the same names. -/
theorem parse_alike {source source' : TokenSource} (hl : source.last.word = source'.last.word)
    (h : Pulls.Alike source.pulls source'.pulls) (scope : Scope) :
    Outcome.Alike (parse source scope).1 (parse source' scope).1 ∧
      (parse source scope).2 = (parse source' scope).2 := by
  have hs := @Parse.alike_program _ Scope.apply _ _ hl _ _ h scope
  unfold parse
  generalize Parse.program Scope.apply source.last source.pulls scope = reached,
    Parse.program Scope.apply source'.last source'.pulls scope = reached' at hs
  cases hs with
  | yield s ha _ =>
    cases ha
    exact ⟨.ok _, rfl⟩
  | failure s he => exact ⟨.error he, rfl⟩

end IntLang
