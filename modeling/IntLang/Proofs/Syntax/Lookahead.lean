import IntLang.Proofs.Reading.Lookahead
import IntLang.Proofs.Syntax.Grammar

/-!
# The parser looks one token ahead

Every part of the parser runs on the tokens of its nonterminal: behind a result they are a word of it,
and in front of an unexpected token they begin one.

* `Nonterminal.language`: the words of a nonterminal as a language;
* **`Parse.runs_program`**: a whole program runs on the words of the grammar;
* `parse_settled`: tokens are parsed up to a point behind which only the next one counts;
* `parse_faulty`: what a lexical error behind tokens comes to.
-/

namespace IntLang

def Nonterminal.language (n : Nonterminal) : Language TokenKind := {u | Derives n u}

namespace Parse

open Reading
open TokenSource (peek)
open Nonterminal (language)

variable {σ : Type} {check : NameCheck σ} {last : Token}

/-! ## Expressions -/

/-- What may follow an operand. -/
def further : Language TokenKind := {v | ∀ u, Derives .expr u → Derives .expr (u ++ v)}

theorem nil_mem_further : [] ∈ further := fun u hu => by rwa [List.append_nil]

theorem exists_mem_further : ∃ u, u ∈ further := ⟨[], nil_mem_further⟩

theorem exists_mem_expr : ∃ u, u ∈ language .expr := ⟨[.number], .first (.plain .number)⟩

theorem chain_of_peek {t : Token} {pulls : List Pull} (ht : peek last pulls = .ok t)
    (hk : t.kind ∉ [TokenKind.minus, .number, .ident, .lparen]) :
    chain check last pulls = .fail (.unexpected t none) := by
  rcases pulls with _ | ⟨pull, pulls⟩ <;> cases ht <;> rw [chain]
  split
  · next h => simp [h] at hk
  · next h => simp [h] at hk
  · next h => simp [h] at hk
  · next h => simp [h] at hk
  · rfl

theorem yields_tail_of_peek {operand : Node} {t : Token} {pulls : List Pull} {s : σ}
    (ht : peek last pulls = .ok t) (hk : t.kind.binary? = none) :
    (tail check last operand pulls).Yields s ⟨operand, []⟩ s pulls := by
  rcases pulls with _ | ⟨pull, pulls⟩ <;> cases ht <;> rw [tail]
  · exact yields_stay.mpr ⟨rfl, rfl, rfl⟩
  · simp only [hk]
    exact yields_stay.mpr ⟨rfl, rfl, rfl⟩

variable (check) in
/-- A chain behind a name at its start. -/
def behindName (name last : Token) (pulls : List Pull) : Reading σ (pulls.length + 1) Chain :=
  look last pulls fun next =>
    if next.kind = .assign then
      ((eat last .assign pulls).bind fun _ r _ =>
        ((chain check last r).map fun c => ⟨.assign name.value c.tree, []⟩).followed check
          (.uses name.value)).loose
    else .after check (.uses name.value) (tail check last (.var name.value) pulls)

theorem chain_name {t : Token} (ht : t.kind = .ident) (last : Token) (pulls : List Pull) :
    chain check last (.ok t :: pulls) = behindName check t last pulls := by
  rw [chain]
  simp only [ht]
  rfl

mutual

theorem runs_chain (hl : last.kind = .eof) (hc : check.RefusesNames) (pulls : List Pull) (s : σ) :
    Runs (language .expr) (chain check) last pulls s := by
  have refuses {pulls : List Pull} {t : Token} (ht : peek last pulls = .ok t)
      (hk : t.kind ∉ [TokenKind.minus, .number, .ident, .lparen]) :
      Runs (language .expr) (chain check) last pulls s :=
    .refuse ht exists_mem_expr fun _ _ _ h => by rw [chain_of_peek h hk]; rfl
  match pulls with
  | [] => exact refuses rfl (by simp [hl])
  | .error e :: _ => exact .fault rfl (by rw [chain]; rfl)
  | .ok t :: pulls =>
    by_cases hm : t.kind = .minus
    · refine ((runs_chain hl hc pulls s).map fun c => { c with first := .negate c.first }).token
        (by simp [hm]) (fun u hu => hm ▸ Derives.sign hu) fun last pulls a s' rest h => ?_
      rw [chain]
      simp only [hm]
      exact h.weaken _
    by_cases hn : t.kind = .number
    · refine (runs_tail hl hc (numberNode t.value) pulls s).token (by simp [hn])
        (fun u hu => hn ▸ hu _ (.first (.plain .number))) fun last pulls a s' rest h => ?_
      rw [chain]
      simp only [hn]
      exact h
    by_cases hi : t.kind = .ident
    · refine (runs_behindName hl hc t pulls s).token (by simp [hi]) (fun u hu => hi ▸ hu)
        fun last pulls a s' rest h => ?_
      rw [chain_name hi]
      exact h
    by_cases hp : t.kind = .lparen
    · refine ((runs_chain hl hc pulls s).bind hl
        (exists_mem_mul (exists_mem_kind _) exists_mem_further) fun c s₁ r hr =>
        (Runs.eat .rparen hl (by simp)).andThen hl exists_mem_further fun _ s₂ r' hr' =>
          runs_tail hl hc c.tree r' s₂).token (by simp [hp]) ?_ fun last pulls a s' rest h => ?_
      · rintro _ ⟨u, hu, _, ⟨_, rfl, v, hv, rfl⟩, rfl⟩
        have h := hv _ (.first (.plain (.group hu)))
        rw [List.append_assoc, List.singleton_append] at h
        exact hp ▸ h
      · rw [chain]
        simp only [hp]
        exact h.weaken _
    · exact refuses rfl (by simp [hm, hn, hi, hp])
termination_by 2 * pulls.length

theorem runs_behindName (hl : last.kind = .eof) (hc : check.RefusesNames) (name : Token)
    (pulls : List Pull) (s : σ) :
    Runs {v | Derives .expr (.ident :: v)} (behindName check name) last pulls s := by
  refine .look hl fun next _ => ?_
  split
  · refine ((Runs.eat .assign hl (by simp)).bind hl exists_mem_expr fun _ s₁ r hr =>
      ((runs_chain hl hc r s₁).map _).followed hl hc).loose.mono ?_
    rintro _ ⟨_, rfl, u, hu, rfl⟩
    exact .first (.plain (.assign hu))
  · refine (Runs.after hc fun s₁ _ => runs_tail hl hc (.var name.value) pulls s₁).mono fun v hv => ?_
    exact hv _ (.first (.plain .name))
termination_by 2 * pulls.length + 1

theorem runs_tail (hl : last.kind = .eof) (hc : check.RefusesNames) (operand : Node)
    (pulls : List Pull) (s : σ) :
    Runs further (fun last pulls => tail check last operand pulls) last pulls s := by
  have stops {pulls : List Pull} {t : Token} (ht : peek last pulls = .ok t)
      (hk : t.kind.binary? = none) :
      Runs further (fun last pulls => tail check last operand pulls) last pulls s :=
    .stay nil_mem_further fun _ _ hs => yields_tail_of_peek (hs.2 t ht) hk
  match pulls with
  | [] => exact stops rfl (by rw [hl]; rfl)
  | .error e :: _ => exact .fault rfl (by rw [tail]; rfl)
  | .ok t :: pulls =>
    cases hop : t.kind.binary? with
    | none => exact stops rfl hop
    | some op =>
      refine ((runs_chain hl hc pulls s).map fun c =>
        (⟨operand, (op, c.first) :: c.more⟩ : Chain)).token ?_ ?_ fun last pulls a s' rest h => ?_
      · rintro hk
        rw [hk] at hop
        cases hop
      · exact fun u hu v hv => hv.join (by rw [hop]; rfl) hu
      · rw [tail]
        simp only [hop]
        exact (h.weaken _).weaken _
termination_by 2 * pulls.length

end

theorem runs_expression (hl : last.kind = .eof) (hc : check.RefusesNames) (pulls : List Pull)
    (s : σ) : Runs (language .expr) (expression check) last pulls s :=
  (runs_chain hl hc pulls s).map _

/-! ## Statements -/

theorem runs_declaration (hl : last.kind = .eof) (hc : check.RefusesNames) (pulls : List Pull)
    (s : σ) : Runs {v | Derives .statement (.int :: v)} (declaration check) last pulls s := by
  have hE : ∃ v, v ∈ ({v | Derives .statement (.int :: .ident :: v)} : Language TokenKind) :=
    ⟨[.semi], .declare⟩
  have semi := exists_mem_kind .semi
  refine ((Runs.eat .ident hl (by simp)).bind hl hE fun name s₁ r _ =>
    Runs.look hl fun next _ => ?_).mono ?_
  · split
    · refine ((Runs.eat .assign hl (by simp)).bind hl (exists_mem_mul exists_mem_expr semi)
        fun _ s₂ r _ => (runs_expression hl hc r s₂).bind hl semi fun value s₃ r _ =>
          ((Runs.eat .semi hl (by simp)).map _).followed hl hc).mono ?_
      rintro _ ⟨_, rfl, _, ⟨u, hu, _, rfl, rfl⟩, rfl⟩
      exact .initial hu
    · refine (((Runs.eat .semi hl (by simp)).map _).followed hl hc).mono ?_
      rintro _ rfl
      exact .declare
  · rintro _ ⟨_, rfl, v, hv, rfl⟩
    exact hv

theorem runs_printing (hl : last.kind = .eof) (hc : check.RefusesNames) (pulls : List Pull)
    (s : σ) : Runs {v | Derives .statement (.print :: v)} (printing check) last pulls s := by
  have hE : ∃ v, v ∈ ({v | Derives .statement (.print :: .lparen :: v)} : Language TokenKind) :=
    ⟨[.string, .rparen, .semi], .printText⟩
  have semi := exists_mem_kind .semi
  have close := exists_mem_mul (exists_mem_kind .rparen) semi
  refine ((Runs.eat .lparen hl (by simp)).bind hl hE fun _ s₁ r _ =>
    Runs.look hl fun next _ => ?_).mono ?_
  · split
    · refine ((Runs.eat .string hl (by simp)).bind hl close fun text s₂ r _ =>
        (Runs.eat .rparen hl (by simp)).bind hl semi fun _ s₃ r _ =>
          (Runs.eat .semi hl (by simp)).map _).mono ?_
      rintro _ ⟨_, rfl, _, ⟨_, rfl, _, rfl, rfl⟩, rfl⟩
      exact .printText
    · refine ((runs_expression hl hc r s₁).bind hl close fun value s₂ r _ =>
        (Runs.eat .rparen hl (by simp)).bind hl semi fun _ s₃ r _ =>
          (Runs.eat .semi hl (by simp)).map _).mono ?_
      rintro _ ⟨u, hu, _, ⟨_, rfl, _, rfl, rfl⟩, rfl⟩
      exact .print hu
  · rintro _ ⟨_, rfl, v, hv, rfl⟩
    exact hv

theorem statement_of_peek {t : Token} {pulls : List Pull} (ht : peek last pulls = .ok t)
    (hk : t.kind ∉ [TokenKind.int, .print, .ifWord]) :
    statement check last pulls =
      (expression check last pulls).bind fun e r _ => (eat last .semi r).map fun _ => e := by
  rcases pulls with _ | ⟨pull, pulls⟩ <;> cases ht <;> rw [statement]
  · rw [expression, chain]
    rfl
  · split
    · next h => simp [h] at hk
    · next h => simp [h] at hk
    · next h => simp [h] at hk
    · rfl

variable (check) in
/-- What follows the first word of a branch. -/
def branching (last : Token) (pulls : List Pull) : Reading σ pulls.length Node :=
  (eat last .lparen pulls).bind fun _ r _ =>
  (expression check last r).bind fun condition r _ =>
  (eat last .rparen r).bind fun _ r _ =>
  (block check last r).andThen fun yes r _ =>
  look last r fun next =>
    if next.kind = .elseWord then
      ((eat last .elseWord r).bind fun _ r _ =>
        (block check last r).map fun no => .branch condition yes (some no)).loose
    else .stay (.branch condition yes none) r

theorem statement_branch {t : Token} (ht : t.kind = .ifWord) (last : Token) (pulls : List Pull) :
    statement check last (.ok t :: pulls) = (branching check last pulls).loose := by
  rw [statement]
  simp only [ht]
  rfl

theorem statements_of_peek {close : TokenKind} {t : Token} {pulls : List Pull}
    (hl : last.kind = .eof) (ht : peek last pulls = .ok t) (hk : ¬ (t.kind = close ∨ t.kind = .eof)) :
    statements check last close pulls = ((statement check last pulls).andThen fun node r _ =>
      (statements check last close r).map fun more => node :: more).loose := by
  rcases pulls with _ | ⟨pull, pulls⟩ <;> cases ht
  · exact absurd (.inr hl) hk
  · rw [statements, if_neg hk]

theorem block_eq (check : NameCheck σ) : block check = fun last pulls =>
    (eat last .lbrace pulls).bind fun _ r _ =>
    (statements check last .rbrace r).finish fun body r _ =>
    (eat last .rbrace r).map fun _ => body := by
  funext last pulls
  rw [block]

/-- What may follow the first block of a branch. -/
def alternative : Language TokenKind := {v | v = [] ∨ ∃ u, Derives .block u ∧ v = .elseWord :: u}

theorem exists_mem_block : ∃ u, u ∈ language .block := ⟨[.lbrace, .rbrace], .braces .nil⟩

mutual

theorem runs_statement (hl : last.kind = .eof) (hc : check.RefusesNames) (pulls : List Pull) (s : σ) :
    Runs (language .statement) (statement check) last pulls s := by
  have plain {t : Token} {pulls : List Pull} (ht : peek last pulls = .ok t)
      (hk : t.kind ∉ [TokenKind.int, .print, .ifWord]) :
      Runs (language .statement) (statement check) last pulls s := by
    have hE := exists_mem_kind .semi
    refine (((runs_expression hl hc pulls s).bind hl hE fun e s₁ r _ =>
      (Runs.eat .semi hl (by simp)).map fun _ => e).choose hl ht
        fun last pulls a s' rest _ ht h => ?_).mono ?_
    · rw [statement_of_peek ht hk]
      exact h
    · rintro _ ⟨u, hu, _, rfl, rfl⟩
      exact .bare hu
  match pulls with
  | [] => exact plain rfl (by simp [hl])
  | .error e :: _ => exact .fault rfl (by rw [statement]; rfl)
  | .ok t :: pulls =>
    by_cases hi : t.kind = .int
    · refine (runs_declaration hl hc pulls s).token (by simp [hi]) (fun u hu => hi ▸ hu)
        fun last pulls a s' rest h => ?_
      rw [statement]
      simp only [hi]
      exact h.weaken _
    by_cases hp : t.kind = .print
    · refine (runs_printing hl hc pulls s).token (by simp [hp]) (fun u hu => hp ▸ hu)
        fun last pulls a s' rest h => ?_
      rw [statement]
      simp only [hp]
      exact h.weaken _
    by_cases hb : t.kind = .ifWord
    · refine (runs_branching hl hc pulls s).token (by simp [hb]) (fun u hu => hb ▸ hu)
        fun last pulls a s' rest h => ?_
      rw [statement_branch hb]
      exact h.weaken _
    · exact plain rfl (by simp [hi, hp, hb])
termination_by 2 * pulls.length

theorem runs_branching (hl : last.kind = .eof) (hc : check.RefusesNames) (pulls : List Pull) (s : σ) :
    Runs {v | Derives .statement (.ifWord :: v)} (branching check) last pulls s := by
  have hno : ∃ v, v ∈ alternative := ⟨[], .inl rfl⟩
  have hyes := exists_mem_mul exists_mem_block hno
  have hclose := exists_mem_mul (exists_mem_kind .rparen) hyes
  refine ((Runs.eat .lparen hl (by simp)).bind hl (exists_mem_mul exists_mem_expr hclose) fun _ s₁ r hr =>
    (runs_expression hl hc r s₁).bind hl hclose fun condition s₂ r₁ hr₁ =>
    (Runs.eat .rparen hl (by simp)).bind hl hyes fun _ s₃ r₂ hr₂ =>
    (runs_block hl hc r₂ s₃).andThen hl hno fun yes s₄ r₃ hr₃ => Runs.look hl fun next _ => ?_).mono ?_
  · split
    · refine ((Runs.eat .elseWord hl (by simp)).bind hl exists_mem_block fun _ s₅ r₄ hr₄ =>
        (runs_block hl hc r₄ s₅).map _).loose.mono ?_
      rintro _ ⟨_, rfl, u, hu, rfl⟩
      exact .inr ⟨u, hu, rfl⟩
    · exact .stay (.inl rfl) fun _ _ _ => yields_stay.mpr ⟨rfl, rfl, rfl⟩
  · rintro _ ⟨_, rfl, _, ⟨u, hu, _, ⟨_, rfl, _, ⟨v, hv, _, rfl | ⟨v', hv', rfl⟩, rfl⟩, rfl⟩, rfl⟩, rfl⟩
    · have h := Derives.branch hu hv
      change Derives _ _
      simpa using h
    · have h := Derives.branchElse hu hv hv'
      change Derives _ _
      simpa using h
termination_by 2 * pulls.length

theorem runs_block (hl : last.kind = .eof) (hc : check.RefusesNames) (pulls : List Pull) (s : σ) :
    Runs (language .block) (block check) last pulls s := by
  have close := exists_mem_kind .rbrace
  rw [block_eq]
  refine ((Runs.eat .lbrace hl (by simp)).bind hl (exists_mem_mul ⟨[], .nil⟩ close) fun _ s₁ r hr =>
    (runs_statements hl hc .rbrace r s₁).finish hl close fun body s₂ r _ =>
    (Runs.eat .rbrace hl (by simp)).map fun _ => body).mono ?_
  rintro _ ⟨_, rfl, _, ⟨u, hu, _, rfl, rfl⟩, rfl⟩
  exact .braces hu
termination_by 2 * pulls.length

theorem runs_statements (hl : last.kind = .eof) (hc : check.RefusesNames) (close : TokenKind)
    (pulls : List Pull) (s : σ) :
    Runs (language .statements) (fun last pulls => statements check last close pulls) last pulls s := by
  have stops {pulls : List Pull} {t : Token} (ht : peek last pulls = .ok t)
      (hk : t.kind = close ∨ t.kind = .eof) :
      Runs (language .statements) (fun last pulls => statements check last close pulls) last pulls s :=
    .stay .nil fun _ _ hs => yields_statements_of_closes ⟨t, hs.2 t ht, hk⟩
  match pulls with
  | [] => exact stops rfl (.inr hl)
  | .error e :: _ => exact .fault rfl (by rw [statements]; rfl)
  | .ok t :: pulls =>
    by_cases hk : t.kind = close ∨ t.kind = .eof
    · exact stops rfl hk
    refine (((runs_statement hl hc (.ok t :: pulls) s).andThen hl ⟨[], .nil⟩ fun node s₁ r hr =>
      (runs_statements hl hc close r s₁).map fun more => node :: more).choose hl rfl
        fun last pulls a s' rest hl ht h => ?_).mono ?_
    · rw [statements_of_peek hl ht hk]
      exact h.weaken _
    · rintro _ ⟨u, hu, v, hv, rfl⟩
      exact .more hu hv
termination_by 2 * pulls.length + 1
decreasing_by all_goals (simp only [List.length_cons] at *; omega)

end

/-- **The parser looks one token ahead.** -/
theorem runs_program (hl : last.kind = .eof) (hc : check.RefusesNames) (pulls : List Pull) (s : σ) :
    Runs (language .statements) (program check) last pulls s :=
  runs_statements hl hc .eof pulls s

end Parse

/-! ## Sources -/

theorem Scope.refusesNames : Scope.apply.RefusesNames := by
  intro s event t d h
  have hr : NameCheck.replay Scope.apply s [event] = (some (.unexpected t d), s) := by
    rw [NameCheck.replay, h]
  obtain ⟨name, h | h⟩ := Scope.replay_refusal hr <;> cases h

theorem parse_of_ends {last : Token} {pulls rest : List Pull} {scope scope' : Scope}
    {a : Except CompileError Program}
    (h : (Parse.program Scope.apply last pulls).Ends scope a scope' rest) :
    parse ⟨pulls, last⟩ scope = (a, scope') := by
  cases a with
  | ok nodes =>
    obtain ⟨_, hr⟩ := h
    simp only [parse, hr]
    rfl
  | error e =>
    have hr : Parse.program Scope.apply last pulls scope = ⟨scope', .error e⟩ := h
    simp only [parse, hr]
    rfl

theorem exists_split_of_error {ts us : List Token} {rest more : List Pull} {e : CompileError}
    (h : us.map .ok ++ .error e :: more = ts.map .ok ++ rest) :
    ∃ vs : List Token, us = ts ++ vs ∧ rest = vs.map .ok ++ .error e :: more := by
  induction ts generalizing us with
  | nil => exact ⟨us, rfl, h.symm⟩
  | cons t ts ih =>
    cases us with
    | nil => cases h
    | cons u us =>
      obtain ⟨ht, h⟩ := List.cons.inj h
      obtain ⟨vs, rfl, hr⟩ := ih h
      exact ⟨vs, by rw [Except.ok.inj ht]; rfl, hr⟩

section

variable {last : Token}

/-- Tokens without a lexical error are parsed up to a point behind which only the next one counts. -/
theorem parse_settled (hl : last.kind = .eof) (ts : List Token) (scope : Scope) :
    ∃ (us vs : List Token) (a : Except CompileError Program) (scope' : Scope), ts = us ++ vs ∧
      (∀ u ∈ us, u.kind ≠ .eof) ∧
      Fits (Nonterminal.language .statements) (us.map Token.kind) (TokenSource.peek last (vs.map .ok))
        a ∧
      ∀ last' rest', Sees last (vs.map .ok) last' rest' →
        parse ⟨us.map .ok ++ rest', last'⟩ scope = (a, scope') := by
  cases Parse.runs_program hl Scope.refusesNames (ts.map .ok) scope with
  | faulty us rest hp hus he h =>
    obtain ⟨us', vs, rfl, -, rfl⟩ := List.map_eq_append_iff.mp hp
    cases vs <;> cases he
  | settled us rest a scope' hp hus hf h =>
    obtain ⟨us', vs, rfl, hu, rfl⟩ := List.map_eq_append_iff.mp hp
    obtain rfl := (List.map_inj_right fun _ _ => Except.ok.inj).mp hu
    exact ⟨us', vs, a, scope', rfl, hus, hf, fun last' rest' hs => parse_of_ends (h last' rest' hs)⟩

/-- No source with a lexical error in front of the end of input gives a program. -/
theorem parse_ne_ok {us : List Token} {e : CompileError} {more : List Pull}
    (hus : ∀ u ∈ us, u.kind ≠ .eof) (scope : Scope) (nodes : Program) :
    (parse ⟨us.map .ok ++ .error e :: more, last⟩ scope).1 ≠ .ok nodes := by
  intro h
  obtain ⟨rest, hy⟩ := exists_yields_of_parse h
  obtain ⟨ts, hp, -, -⟩ := Parse.took_program _ _ _ hy
  obtain ⟨vs, rfl, rfl⟩ := exists_split_of_error hp
  obtain hr | ⟨t, rest, hr, hk⟩ := Parse.rest_statements _ _ _ hy
  · cases vs <;> cases hr
  · cases vs with
    | nil => cases hr
    | cons v vs =>
      cases hr
      exact hus t (by simp) (hk.elim id id)

/-- A lexical error is raised, unless there is an error in front of it that nothing in its place changes. -/
theorem parse_faulty (hl : last.kind = .eof) {us : List Token} (hus : ∀ u ∈ us, u.kind ≠ .eof)
    (e : CompileError) (more : List Pull) (scope : Scope) :
    (parse ⟨us.map .ok ++ .error e :: more, last⟩ scope).1 = .error e ∨
      ∃ e' scope', ∀ (rest : List Pull) (last' : Token), last'.kind = .eof →
        parse ⟨us.map .ok ++ rest, last'⟩ scope = (.error e', scope') := by
  cases Parse.runs_program hl Scope.refusesNames (us.map .ok ++ .error e :: more) scope with
  | faulty ts rest hp _ he h =>
    obtain ⟨vs, rfl, rfl⟩ := exists_split_of_error hp
    cases vs <;> cases he
    left
    simp only [parse, h]
    rfl
  | settled ts rest a scope' hp _ _ h =>
    -- the end is in front of the lexical error, so the tokens there may be followed by anything
    obtain ⟨vs, rfl, rfl⟩ := exists_split_of_error hp
    have hs := parse_of_ends (h last _ ⟨hl, fun _ => id⟩)
    rw [← hp] at hs
    cases a with
    | ok nodes => exact absurd (congrArg Prod.fst hs) (parse_ne_ok hus scope nodes)
    | error e' =>
      refine .inr ⟨e', scope', fun rest last' hl' => ?_⟩
      rw [List.map_append, List.append_assoc]
      refine parse_of_ends (h last' _ ⟨hl', fun t ht => ?_⟩)
      cases vs <;> cases ht
      rfl

end

end IntLang
