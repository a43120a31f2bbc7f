import IntLang.Proofs.Names.SinglePass
import IntLang.Proofs.Syntax.Complete

/-!
# The grammar

```
statements := { statement }
statement  := "int" name [ "=" expr ] ";"
            | "print" "(" ( expr | string ) ")" ";"
            | "if" "(" expr ")" block [ "else" block ]
            | expr ";"
block      := "{" statements "}"
expr       := operand { operator operand }
operand    := { "-" } primary
primary    := number | name | name "=" expr | "(" expr ")"
```

The grammar is ambiguous: in `a = 1 + 2` the sum may be the value of `a` or have the assignment as its
first operand. For what is accepted this makes no difference.

* `Derives` is the grammar, over the kinds of tokens;
* `derives_of_makesProgram`, `Derives.made`: words make a program just when their kinds are derived;
* **`parse_ofTokens_derives`**: given tokens have no error of syntax just when the kinds of those before
  the end of input are derived.
-/

namespace IntLang

inductive Nonterminal where
  | statements | statement | block | expr | operand | primary
  deriving DecidableEq, Repr

/-- The words of each nonterminal. -/
inductive Derives : Nonterminal → List TokenKind → Prop
  | nil : Derives .statements []
  | more {u v : List TokenKind} (h : Derives .statement u) (hs : Derives .statements v) :
    Derives .statements (u ++ v)
  | declare : Derives .statement [.int, .ident, .semi]
  | initial {u : List TokenKind} (h : Derives .expr u) :
    Derives .statement (.int :: .ident :: .assign :: u ++ [.semi])
  | print {u : List TokenKind} (h : Derives .expr u) :
    Derives .statement (.print :: .lparen :: u ++ [.rparen, .semi])
  | printText : Derives .statement [.print, .lparen, .string, .rparen, .semi]
  | branch {u v : List TokenKind} (h : Derives .expr u) (hy : Derives .block v) :
    Derives .statement (.ifWord :: .lparen :: u ++ .rparen :: v)
  | branchElse {u v v' : List TokenKind} (h : Derives .expr u) (hy : Derives .block v)
    (hn : Derives .block v') :
    Derives .statement (.ifWord :: .lparen :: u ++ .rparen :: v ++ .elseWord :: v')
  | bare {u : List TokenKind} (h : Derives .expr u) : Derives .statement (u ++ [.semi])
  | braces {u : List TokenKind} (h : Derives .statements u) :
    Derives .block (.lbrace :: u ++ [.rbrace])
  | first {u : List TokenKind} (h : Derives .operand u) : Derives .expr u
  | further {u v : List TokenKind} {k : TokenKind} (h : Derives .expr u)
    (hk : k ∈ [.eq, .ne, .lt, .gt, .le, .ge, .plus, .minus, .star, .slash])
    (ho : Derives .operand v) : Derives .expr (u ++ k :: v)
  | plain {u : List TokenKind} (h : Derives .primary u) : Derives .operand u
  | minus {u : List TokenKind} (h : Derives .operand u) : Derives .operand (.minus :: u)
  | number : Derives .primary [.number]
  | name : Derives .primary [.ident]
  | assign {u : List TokenKind} (h : Derives .expr u) : Derives .primary (.ident :: .assign :: u)
  | group {u : List TokenKind} (h : Derives .expr u) :
    Derives .primary (.lparen :: u ++ [.rparen])

theorem TokenKind.binary?_isSome {k : TokenKind} : k.binary?.isSome = true ↔
    k ∈ [.eq, .ne, .lt, .gt, .le, .ge, .plus, .minus, .star, .slash] := by
  cases k <;> decide

/-! ## What is made is derived -/

/-- An operator between two expressions gives an expression. -/
theorem Derives.join {u v : List TokenKind} {k : TokenKind} (hu : Derives .expr u)
    (hk : k.binary?.isSome = true) (hv : Derives .expr v) : Derives .expr (u ++ k :: v) := by
  generalize hn : Nonterminal.expr = n at hv
  induction hv with
  | first ho => exact .further hu (TokenKind.binary?_isSome.mp hk) ho
  | further _ hk' ho ih =>
    rw [← List.cons_append, ← List.append_assoc]
    exact .further (ih hn) hk' ho
  | _ => cases hn

/-- A sign in front of an expression belongs to its first operand. -/
theorem Derives.sign {u : List TokenKind} (h : Derives .expr u) : Derives .expr (.minus :: u) := by
  generalize hn : Nonterminal.expr = n at h
  induction h with
  | first ho => exact .first (.minus ho)
  | further _ hk ho ih => exact .further (ih hn) hk ho
  | _ => cases hn

theorem derives_of_makesChain {u : List Word} {c : Chain} (h : MakesChain u c) :
    Derives .expr (u.map Word.kind) := by
  refine @MakesChain.rec (fun u _ _ => Derives .expr (u.map Word.kind))
    (fun v _ _ => ∀ x, Derives .expr x → Derives .expr (x ++ v.map Word.kind))
    ?negate ?number ?name ?assign ?group ?stop ?more u c h
  case negate =>
    intro w u c hw _ ih
    rw [List.map_cons, hw]
    exact ih.sign
  case number =>
    intro w v more hw _ ih
    rw [List.map_cons, hw]
    exact ih _ (.first (.plain .number))
  case name =>
    intro w v more hw _ ih
    rw [List.map_cons, hw]
    exact ih _ (.first (.plain .name))
  case assign =>
    intro w e u c hw he _ ih
    rw [List.map_cons, List.map_cons, hw, he]
    exact .first (.plain (.assign ih))
  case group =>
    intro l r u v c more hl _ hr _ ih iht
    have h := iht _ (.first (.plain (.group ih)))
    simpa [hl, hr] using h
  case stop =>
    intro x hx
    simpa using hx
  case more =>
    intro w op u c hw _ ih x hx
    exact hx.join (by rw [hw]; rfl) ih

theorem derives_of_makesProgram {u : List Word} {nodes : List Node} (h : MakesProgram u nodes) :
    Derives .statements (u.map Word.kind) := by
  refine @MakesProgram.rec (fun u _ _ => Derives .statement (u.map Word.kind))
    (fun u _ _ => Derives .block (u.map Word.kind))
    (fun u _ _ => Derives .statements (u.map Word.kind))
    ?declare ?initial ?print ?printText ?branch ?branchElse ?bare ?braces ?nil ?cons u nodes h
  case declare =>
    intro w n s hw hn hs
    simpa [hw, hn, hs] using Derives.declare
  case initial =>
    intro w n e s u c hw hn he h hs
    simpa [hw, hn, he, hs] using Derives.initial (derives_of_makesChain h)
  case print =>
    intro w l r s u c hw hl h hr hs
    simpa [hw, hl, hr, hs] using Derives.print (derives_of_makesChain h)
  case printText =>
    intro w l t r s hw hl ht hr hs
    simpa [hw, hl, ht, hr, hs] using Derives.printText
  case branch =>
    intro w l r u v c yes hw hl h hr _ ihy
    simpa [hw, hl, hr] using Derives.branch (derives_of_makesChain h) ihy
  case branchElse =>
    intro w l r e u v v' c yes no hw hl h hr _ he _ ihy ihn
    simpa [hw, hl, hr, he] using Derives.branchElse (derives_of_makesChain h) ihy ihn
  case bare =>
    intro s u c h hs
    simpa [hs] using Derives.bare (derives_of_makesChain h)
  case braces =>
    intro l r u nodes hl _ hr ih
    simpa [hl, hr] using Derives.braces ih
  case nil => exact .nil
  case cons =>
    intro u v node nodes _ _ ih ihs
    simpa using Derives.more ih ihs

/-! ## What is derived is made -/

/-- A chain takes a further operand, however deep its last operand stands. -/
theorem MakesChain.join {u v : List Word} {w : Word} {c c' : Chain} (h : MakesChain u c)
    (hw : w.kind.binary?.isSome = true) (hv : MakesChain v c') :
    ∃ c'', MakesChain (u ++ w :: v) c'' := by
  obtain ⟨op, hop⟩ := Option.isSome_iff_exists.mp hw
  refine @MakesChain.rec (fun u _ _ => ∃ c, MakesChain (u ++ w :: v) c)
    (fun t _ _ => ∃ more, MakesTail (t ++ w :: v) more)
    ?negate ?number ?name ?assign ?group ?stop ?more u c h
  case negate => exact fun hw _ ⟨_, h⟩ => ⟨_, .negate hw h⟩
  case number => exact fun hw _ ⟨_, h⟩ => ⟨_, .number hw h⟩
  case name => exact fun hw _ ⟨_, h⟩ => ⟨_, .name hw h⟩
  case assign => exact fun hw he _ ⟨_, h⟩ => ⟨_, .assign hw he h⟩
  case group =>
    intro l r u t c more hl h hr _ _ ⟨_, ht⟩
    rw [List.append_assoc, List.cons_append]
    exact ⟨_, .group hl h hr ht⟩
  case stop => exact ⟨_, .more hop hv⟩
  case more => exact fun hw _ ⟨_, h⟩ => ⟨_, .more hw h⟩

/-- The words make what the nonterminal stands for. -/
def Nonterminal.Made : Nonterminal → List Word → Prop
  | .statements, u => ∃ nodes, MakesProgram u nodes
  | .statement, u => ∃ node, MakesStatement u node
  | .block, u => ∃ nodes, MakesBlock u nodes
  | .expr, u | .operand, u | .primary, u => ∃ c, MakesChain u c

theorem Derives.made {n : Nonterminal} {k : List TokenKind} (h : Derives n k) :
    ∀ {u : List Word}, u.map Word.kind = k → n.Made u := by
  induction h with
  | nil =>
    intro u hu
    rw [List.map_eq_nil_iff.mp hu]
    exact ⟨_, .nil⟩
  | more _ _ ih ihs =>
    intro u hu
    obtain ⟨u, v, rfl, hu, hv⟩ := List.map_eq_append_iff.mp hu
    obtain ⟨node, h⟩ := ih hu
    obtain ⟨nodes, hs⟩ := ihs hv
    exact ⟨_, .cons h hs⟩
  | declare =>
    intro u hu
    simp only [List.map_eq_cons_iff, List.map_eq_nil_iff] at hu
    obtain ⟨w, _, rfl, hw, n, _, rfl, hn, s, _, rfl, hs, rfl⟩ := hu
    exact ⟨_, .declare hw hn hs⟩
  | initial _ ih =>
    intro u hu
    simp only [List.cons_append, List.map_eq_cons_iff, List.map_eq_append_iff,
      List.map_eq_nil_iff] at hu
    obtain ⟨w, _, rfl, hw, n, _, rfl, hn, e, _, rfl, he, u, _, rfl, hu, s, _, rfl, hs, rfl⟩ := hu
    obtain ⟨c, h⟩ := ih hu
    exact ⟨_, .initial hw hn he h hs⟩
  | print _ ih =>
    intro u hu
    simp only [List.cons_append, List.map_eq_cons_iff, List.map_eq_append_iff,
      List.map_eq_nil_iff] at hu
    obtain ⟨w, _, rfl, hw, l, _, rfl, hl, u, _, rfl, hu, r, _, rfl, hr, s, _, rfl, hs, rfl⟩ := hu
    obtain ⟨c, h⟩ := ih hu
    exact ⟨_, .print hw hl h hr hs⟩
  | printText =>
    intro u hu
    simp only [List.map_eq_cons_iff, List.map_eq_nil_iff] at hu
    obtain ⟨w, _, rfl, hw, l, _, rfl, hl, t, _, rfl, ht, r, _, rfl, hr, s, _, rfl, hs, rfl⟩ := hu
    exact ⟨_, .printText hw hl ht hr hs⟩
  | branch _ _ ih ihy =>
    intro u hu
    simp only [List.cons_append, List.map_eq_cons_iff, List.map_eq_append_iff] at hu
    obtain ⟨w, _, rfl, hw, l, _, rfl, hl, u, _, rfl, hu, r, v, rfl, hr, hv⟩ := hu
    obtain ⟨c, h⟩ := ih hu
    obtain ⟨yes, hy⟩ := ihy hv
    exact ⟨_, .branch hw hl h hr hy⟩
  | branchElse _ _ _ ih ihy ihn =>
    intro u hu
    simp only [List.cons_append, List.append_assoc, List.map_eq_cons_iff,
      List.map_eq_append_iff] at hu
    obtain ⟨w, _, rfl, hw, l, _, rfl, hl, u, _, rfl, hu, r, _, rfl, hr, v, _, rfl, hv, e, v', rfl, he,
      hv'⟩ := hu
    obtain ⟨c, h⟩ := ih hu
    obtain ⟨yes, hy⟩ := ihy hv
    obtain ⟨no, hn⟩ := ihn hv'
    exact ⟨_, by simpa using MakesStatement.branchElse hw hl h hr hy he hn⟩
  | bare _ ih =>
    intro u hu
    simp only [List.map_eq_cons_iff, List.map_eq_append_iff, List.map_eq_nil_iff] at hu
    obtain ⟨u, _, rfl, hu, s, _, rfl, hs, rfl⟩ := hu
    obtain ⟨c, h⟩ := ih hu
    exact ⟨_, .bare h hs⟩
  | braces _ ih =>
    intro u hu
    simp only [List.cons_append, List.map_eq_cons_iff, List.map_eq_append_iff,
      List.map_eq_nil_iff] at hu
    obtain ⟨l, _, rfl, hl, u, _, rfl, hu, r, _, rfl, hr, rfl⟩ := hu
    obtain ⟨nodes, h⟩ := ih hu
    exact ⟨_, .braces hl h hr⟩
  | first _ ih | plain _ ih => exact ih
  | further _ hk _ ih iho =>
    intro u hu
    simp only [List.map_eq_cons_iff, List.map_eq_append_iff] at hu
    obtain ⟨u, _, rfl, hu, w, v, rfl, rfl, hv⟩ := hu
    obtain ⟨c, h⟩ := ih hu
    obtain ⟨c', h'⟩ := iho hv
    exact h.join (TokenKind.binary?_isSome.mpr hk) h'
  | minus _ ih =>
    intro u hu
    obtain ⟨w, u, rfl, hw, hu⟩ := List.map_eq_cons_iff.mp hu
    obtain ⟨c, h⟩ := ih hu
    exact ⟨_, .negate hw h⟩
  | number =>
    intro u hu
    simp only [List.map_eq_cons_iff, List.map_eq_nil_iff] at hu
    obtain ⟨w, _, rfl, hw, rfl⟩ := hu
    exact ⟨_, .number hw .stop⟩
  | name =>
    intro u hu
    simp only [List.map_eq_cons_iff, List.map_eq_nil_iff] at hu
    obtain ⟨w, _, rfl, hw, rfl⟩ := hu
    exact ⟨_, .name hw .stop⟩
  | assign _ ih =>
    intro u hu
    simp only [List.map_eq_cons_iff] at hu
    obtain ⟨w, _, rfl, hw, e, u, rfl, he, hu⟩ := hu
    obtain ⟨c, h⟩ := ih hu
    exact ⟨_, .assign hw he h⟩
  | group _ ih =>
    intro u hu
    simp only [List.cons_append, List.map_eq_cons_iff, List.map_eq_append_iff,
      List.map_eq_nil_iff] at hu
    obtain ⟨l, _, rfl, hl, u, _, rfl, hu, r, _, rfl, hr, rfl⟩ := hu
    obtain ⟨c, h⟩ := ih hu
    exact ⟨_, .group hl h hr .stop⟩

/-! ## Accepted tokens -/

/-- No word of the grammar holds the end of input. -/
theorem Derives.eof_notMem {n : Nonterminal} {k : List TokenKind} (h : Derives n k) :
    TokenKind.eof ∉ k := by
  induction h with
  | further _ hk _ ih iho =>
    simp only [List.mem_append, List.mem_cons, not_or]
    refine ⟨ih, fun hk' => ?_, iho⟩
    simp [← hk'] at hk
  | _ => simp_all

namespace Parse

variable {σ : Type} {check : NameCheck σ}

/-- A list of statements ends in front of its closing token or at the end of input. -/
theorem rest_statements (last : Token) (close : TokenKind) (pulls : List Pull) :
    ∀ {nodes s s' rest}, (statements check last close pulls).Yields s nodes s' rest →
      rest = [] ∨ ∃ t rest', rest = .ok t :: rest' ∧ (t.kind = close ∨ t.kind = .eof) := by
  unfold statements
  rcases pulls with _ | ⟨e | t, pulls⟩
  · intro nodes s s' rest h
    exact .inl (Reading.yields_stay.mp h).2.2.symm
  · simp
  · intro nodes s s' rest h
    dsimp only at h
    split at h
    · next hk => exact .inr ⟨t, pulls, (Reading.yields_stay.mp h).2.2.symm, hk⟩
    · simp only [Reading.yields_loose, Reading.yields_andThen, Reading.yields_map] at h
      obtain ⟨node, s₁, r, hr, _, nodes, hs, rfl⟩ := h
      exact rest_statements last close r hs
termination_by pulls.length
decreasing_by exact hr

end Parse

theorem TokenSource.kind_endOf (ts : List Token) : (endOf ts).kind = .eof := by
  unfold endOf
  split
  · rfl
  · split
    · next h => exact h
    · rfl

/-- The words in front of the end of input. -/
def Token.words (ts : List Token) : List Word := (ts.map Token.word).takeWhile (·.kind ≠ .eof)

/-- The kinds in front of the end of input. -/
def Token.kinds (ts : List Token) : List TokenKind := (ts.map Token.kind).takeWhile (· ≠ .eof)

theorem Token.map_kind_words (ts : List Token) : (words ts).map Word.kind = kinds ts := by
  rw [words, kinds, List.takeWhile_map, List.takeWhile_map, List.map_map]
  rfl

/-- The tokens either are at their end or go on with the end of input. -/
def Token.Ended (ts : List Token) : Prop := ∀ t ∈ ts.head?, t.kind = .eof

theorem Token.words_append {ts us : List Token} (h : .eof ∉ ts.map Token.kind) (hu : Ended us) :
    words (ts ++ us) = ts.map Token.word := by
  have ht : ∀ w ∈ ts.map Token.word, decide (w.kind ≠ .eof) = true := by
    intro w hw
    obtain ⟨t, ht, rfl⟩ := List.mem_map.mp hw
    exact decide_eq_true fun hk => h (List.mem_map.mpr ⟨t, ht, hk⟩)
  rw [words, List.map_append, List.takeWhile_append_of_pos ht]
  cases us with
  | nil => simp
  | cons t us => simp [hu t rfl]

theorem Token.exists_words (ts : List Token) :
    ∃ us vs, ts = us ++ vs ∧ us.map Token.word = words ts ∧ Ended vs := by
  refine ⟨ts.takeWhile fun t => t.kind ≠ .eof, ts.dropWhile fun t => t.kind ≠ .eof,
    List.takeWhile_append_dropWhile.symm, ?_, ?_⟩
  · rw [words, List.takeWhile_map]
    rfl
  · intro t ht
    have := List.head?_dropWhile_not (fun t : Token => decide (t.kind ≠ .eof)) ts
    rw [Option.mem_def.mp ht] at this
    simpa using this

/-- A program is made of the words in front of the end of input. -/
theorem Parse.makesProgram_of_yields {ts : List Token} {last : Token} {s s' : σ} {nodes : Program}
    {rest : List Pull} (h : (program check last (ts.map .ok)).Yields s nodes s' rest) :
    MakesProgram (Token.words ts) nodes ∧ check.replay s (Program.events nodes) = (none, s') := by
  obtain ⟨us, hts, hu, hs⟩ := took_program check last _ h
  obtain ⟨us', vs, rfl, hus, rfl⟩ := List.map_eq_append_iff.mp hts
  obtain rfl := (List.map_inj_right fun _ _ => Except.ok.inj).mp hus
  have hd := (derives_of_makesProgram hu).eof_notMem
  rw [List.map_map] at hd
  have hv : Token.Ended vs := by
    intro t ht
    obtain ⟨vs, rfl⟩ := List.head?_eq_some_iff.mp ht
    obtain h | ⟨t', _, h, hk⟩ := rest_statements last .eof _ h
    · cases h
    · cases h
      exact hk.elim id id
  rw [Token.words_append hd hv]
  exact ⟨hu, hs⟩

theorem Parse.derives_of_yields {ts : List Token} {last : Token} {s s' : σ} {nodes : Program}
    {rest : List Pull} (h : (program check last (ts.map .ok)).Yields s nodes s' rest) :
    Derives .statements (Token.kinds ts) := by
  rw [← Token.map_kind_words]
  exact derives_of_makesProgram (makesProgram_of_yields h).1

theorem MakesProgram.read_ofTokens {ts : List Token} {program : Program}
    (h : MakesProgram (Token.words ts) program) : (TokenSource.ofTokens ts).read = .ok program := by
  obtain ⟨us, vs, rfl, hus, hv⟩ := Token.exists_words ts
  have hc : Parse.Closes (TokenSource.endOf (us ++ vs)) .eof (vs.map .ok) := by
    cases vs with
    | nil => exact ⟨_, rfl, .inl (TokenSource.kind_endOf _)⟩
    | cons t vs => exact ⟨t, rfl, .inl (hv t rfl)⟩
  obtain ⟨_, hy⟩ := Parse.yields_program (hus ▸ h) hc (NameCheck.replay_silent _)
  rw [TokenSource.read, TokenSource.ofTokens, List.map_append, hy]
  rfl

theorem Derives.read_ofTokens {ts : List Token} (h : Derives .statements (Token.kinds ts)) :
    ∃ program, (TokenSource.ofTokens ts).read = .ok program := by
  obtain ⟨program, hm⟩ := h.made (Token.map_kind_words ts)
  exact ⟨program, hm.read_ofTokens⟩

/-- **Given tokens are parsed by the grammar.** Tokens that give a program are derived up to the end of
input, whatever the scope; and derived tokens have no error of syntax: they give a program or have a
name that is refused. -/
theorem parse_ofTokens_derives (ts : List Token) (scope : Scope) :
    (∀ program, (parse (.ofTokens ts) scope).1 = .ok program →
      Derives .statements (Token.kinds ts)) ∧
    (Derives .statements (Token.kinds ts) →
      (∃ program, (parse (.ofTokens ts) scope).1 = .ok program) ∨
        ∃ name, (parse (.ofTokens ts) scope).1 = .error (.duplicate name) ∨
          (parse (.ofTokens ts) scope).1 = .error (.undeclared name)) := by
  constructor
  · intro program h
    obtain ⟨rest, hy⟩ := exists_yields_of_parse h
    exact Parse.derives_of_yields hy
  · intro h
    obtain ⟨program, hr⟩ := h.read_ofTokens
    rw [parse_of_read hr]
    rcases hw : program.walk scope with ⟨_ | refusal, s'⟩
    · exact .inl ⟨program, rfl⟩
    · obtain ⟨name, rfl | rfl⟩ := Scope.replay_refusal hw
      · exact .inr ⟨name, .inl rfl⟩
      · exact .inr ⟨name, .inr rfl⟩

end IntLang
