import IntLang.Proofs.Syntax.Sound

/-!
# Words that make a program are read

If words make a part of a program and what follows cannot go on with it, the parser takes just these
words, yields that part, and leaves of the names what walking the part leaves.

* `Stops`: what follows a chain is no operator and no `=`;
* **`yields_program`**: words that make a program are read as it in front of the end of input.
-/

namespace IntLang.Parse

open Reading

variable {σ : Type} {check : NameCheck σ} {last : Token} {s s' : σ} {rest : List Pull}

/-! ## Expressions -/

variable (last) in
/-- The next token does not go on with a chain. -/
def Stops (pulls : List Pull) : Prop :=
  ∃ t, TokenSource.peek last pulls = .ok t ∧ t.kind.binary? = none ∧ t.kind ≠ .assign

theorem stops_cons {t : Token} {pulls : List Pull} (h : t.kind ∈ [TokenKind.semi, .rparen]) :
    Stops last (.ok t :: pulls) := by
  refine ⟨t, rfl, ?_⟩
  simp only [List.mem_cons, List.not_mem_nil, or_false] at h
  rcases h with h | h <;> simp [h, TokenKind.binary?]

theorem yields_tail_of_stops {operand : Node} (h : Stops last rest) :
    (tail check last operand rest).Yields s ⟨operand, []⟩ s rest := by
  obtain ⟨t, ht, hb, _⟩ := h
  unfold tail
  match rest with
  | [] => exact yields_stay.mpr ⟨rfl, rfl, rfl⟩
  | .error e :: _ => cases ht
  | .ok t' :: rest =>
    cases ht
    simp [hb]

/-- Behind an operand no `=` comes. -/
theorem peek_ne_assign {ts : List Token} {more : List (BinaryOp × Node)}
    (h : MakesTail (ts.map Token.word) more) (hr : Stops last rest) :
    ∃ t, TokenSource.peek last (ts.map .ok ++ rest) = .ok t ∧ t.kind ≠ .assign := by
  cases ts with
  | nil =>
    obtain ⟨t, ht, _, ha⟩ := hr
    exact ⟨t, ht, ha⟩
  | cons t ts =>
    refine ⟨t, rfl, fun ha => ?_⟩
    cases h with
    | more hw => simp [ha, TokenKind.binary?] at hw

mutual

theorem yields_chain (ts : List Token) : ∀ {c s s' rest}, MakesChain (ts.map Token.word) c →
    Stops last rest → check.replay s c.events = (none, s') →
      (chain check last (ts.map .ok ++ rest)).Yields s c s' rest := by
  intro c s s' rest h hr hs
  match ts with
  | [] => exact absurd h.head (by simp)
  | t :: ts =>
    generalize hts : (t :: ts).map Token.word = u at h
    rw [List.map_cons, List.cons_append, chain]
    cases h with
    | negate hw h =>
      obtain ⟨rfl, rfl⟩ := List.cons.inj hts
      simp only [show t.kind = .minus from hw, yields_loose, yields_map]
      exact ⟨_, yields_chain ts h hr hs, rfl⟩
    | number hw h =>
      obtain ⟨rfl, rfl⟩ := List.cons.inj hts
      simp only [show t.kind = .number from hw]
      exact yields_tail ts h hr (by simpa [Chain.events] using hs)
    | name hw h =>
      obtain ⟨rfl, rfl⟩ := List.cons.inj hts
      obtain ⟨t', ht', hne⟩ := peek_ne_assign h hr
      obtain ⟨s₁, hs₁, hs⟩ := NameCheck.replay_append_none.mp hs
      simp only [show t.kind = .ident from hw, yields_look]
      refine ⟨t', ht', ?_⟩
      rw [if_neg hne, yields_after]
      exact ⟨s₁, NameCheck.replay_singleton.mp hs₁, yields_tail ts h hr hs⟩
    | assign hw he h =>
      obtain ⟨rfl, hu⟩ := List.cons.inj hts
      obtain ⟨e, ts, rfl, rfl, rfl⟩ := List.map_eq_cons_iff.mp hu
      rw [Chain.events_alone, Node.events, Chain.events_tree] at hs
      obtain ⟨s₁, hs, hs₁⟩ := NameCheck.replay_append_none.mp hs
      simp only [show t.kind = .ident from hw, yields_look]
      refine ⟨e, rfl, ?_⟩
      simp only [if_pos (show e.kind = .assign from he), yields_loose, yields_bind, yields_eat,
        yields_followed, yields_map]
      exact ⟨e, s, _, by simp, ⟨rfl, he, rfl⟩, s₁, ⟨_, yields_chain ts h hr hs, rfl⟩,
        NameCheck.replay_singleton.mp hs₁⟩
    | group hl h he hm =>
      obtain ⟨rfl, hu⟩ := List.cons.inj hts
      obtain ⟨ts₁, ts₂, rfl, rfl, hv⟩ := List.map_eq_append_iff.mp hu
      obtain ⟨e, ts₂, rfl, rfl, rfl⟩ := List.map_eq_cons_iff.mp hv
      rw [Chain.events, Chain.events_tree] at hs
      obtain ⟨s₁, hs, hs₁⟩ := NameCheck.replay_append_none.mp hs
      simp only [show t.kind = .lparen from hl, yields_loose, yields_bind, yields_andThen,
        yields_eat]
      rw [List.map_append, List.append_assoc, List.map_cons, List.cons_append]
      have hstop : Stops last (.ok e :: (ts₂.map .ok ++ rest)) :=
        stops_cons (by simp [show e.kind = .rparen from he])
      have hc := yields_chain ts₁ h hstop hs
      exact ⟨_, s₁, _, hc.1, hc, e, s₁, _, by simp, ⟨rfl, he, rfl⟩, yields_tail ts₂ hm hr hs₁⟩
termination_by ts.length

theorem yields_tail (ts : List Token) : ∀ {operand more s s' rest},
    MakesTail (ts.map Token.word) more → Stops last rest →
      check.replay s (Chain.moreEvents more) = (none, s') →
        (tail check last operand (ts.map .ok ++ rest)).Yields s ⟨operand, more⟩ s' rest := by
  intro operand more s s' rest h hr hs
  match ts with
  | [] =>
    cases h
    cases hs
    exact yields_tail_of_stops hr
  | t :: ts =>
    generalize hts : (t :: ts).map Token.word = u at h
    rw [List.map_cons, List.cons_append, tail]
    cases h with
    | stop => cases hts
    | more hw h =>
      obtain ⟨rfl, rfl⟩ := List.cons.inj hts
      simp only [show t.kind.binary? = _ from hw, yields_loose, yields_map]
      exact ⟨_, yields_chain ts h hr hs, rfl⟩
termination_by ts.length

end

variable {pulls : List Pull} {ts : List Token} {c : Chain}

variable (last) in
theorem yields_expression (z : Token) (rest : List Pull) (h : MakesChain (ts.map Token.word) c)
    (hz : z.kind ∈ [TokenKind.semi, .rparen]) (hs : check.replay s c.tree.events = (none, s')) :
    (expression check last (ts.map .ok ++ .ok z :: rest)).Yields s c.tree s' (.ok z :: rest) := by
  rw [Chain.events_tree] at hs
  exact yields_map.mpr ⟨c, yields_chain ts h (stops_cons hz) hs, rfl⟩

/-! ## Statements -/

variable (last) in
/-- The next token is not `else`. -/
def NoElse (pulls : List Pull) : Prop :=
  ∃ t, TokenSource.peek last pulls = .ok t ∧ t.kind ≠ .elseWord

variable (last) in
/-- The next token ends a list of statements. -/
def Closes (close : TokenKind) (pulls : List Pull) : Prop :=
  ∃ t, TokenSource.peek last pulls = .ok t ∧ (t.kind = close ∨ t.kind = .eof)

theorem Closes.noElse {close : TokenKind} (hc : close ≠ .elseWord) (h : Closes last close rest) :
    NoElse last rest := by
  obtain ⟨t, ht, h | h⟩ := h
  · exact ⟨t, ht, h ▸ hc⟩
  · exact ⟨t, ht, by simp [h]⟩

/-- No statement starts with `else`. -/
theorem noElse_of_makesProgram {ts : List Token} {nodes : List Node}
    (h : MakesProgram (ts.map Token.word) nodes) (hr : NoElse last rest) :
    NoElse last (ts.map .ok ++ rest) := by
  generalize hts : ts.map Token.word = u at h
  cases h with
  | nil =>
    rw [List.map_eq_nil_iff.mp hts]
    exact hr
  | cons h =>
    obtain ⟨w, u', rfl, hw⟩ := h.head
    obtain ⟨t, ts, rfl, rfl, _⟩ := List.map_eq_cons_iff.mp hts
    exact ⟨t, rfl, fun hk => by simp [hk] at hw⟩

theorem yields_statements_of_closes {close : TokenKind} (h : Closes last close rest) :
    (statements check last close rest).Yields s [] s rest := by
  obtain ⟨t, ht, hk⟩ := h
  unfold statements
  match rest with
  | [] => exact yields_stay.mpr ⟨rfl, rfl, rfl⟩
  | .error e :: _ => cases ht
  | .ok t' :: rest =>
    cases ht
    simp [hk]

theorem yields_declare {n z : Token} (hpulls : pulls = .ok n :: .ok z :: rest)
    (hn : n.kind = .ident) (hz : z.kind = .semi) (hs : check s (.declares n.value) = .ok s') :
    (declaration check last pulls).Yields s (.declare n.value none) s' rest := by
  subst hpulls
  simp only [declaration, yields_bind, yields_eat, yields_look]
  refine ⟨n, s, _, by simp, ⟨rfl, hn, rfl⟩, z, rfl, ?_⟩
  simp only [hz, reduceCtorEq, if_false, yields_followed, yields_map, yields_eat]
  exact ⟨s, ⟨z, ⟨rfl, hz, rfl⟩, trivial⟩, hs⟩

theorem yields_initial {n e z : Token}
    (hpulls : pulls = .ok n :: .ok e :: (ts.map .ok ++ .ok z :: rest)) (hn : n.kind = .ident)
    (he : e.kind = .assign) (h : MakesChain (ts.map Token.word) c) (hz : z.kind = .semi)
    (hs : check.replay s (Node.declare n.value (some c.tree)).events = (none, s')) :
    (declaration check last pulls).Yields s (.declare n.value (some c.tree)) s' rest := by
  subst hpulls
  rw [Node.events] at hs
  obtain ⟨s₁, hs, hs₁⟩ := NameCheck.replay_append_none.mp hs
  have hv := yields_expression last z rest h (by simp [hz]) hs
  simp only [declaration, yields_bind, yields_eat, yields_look]
  refine ⟨n, s, _, by simp, ⟨rfl, hn, rfl⟩, e, rfl, ?_⟩
  simp only [he, if_true, yields_bind, yields_eat, yields_followed, yields_map]
  exact ⟨e, s, _, by simp, ⟨rfl, he, rfl⟩, _, s₁, _, hv.1, hv, s₁, ⟨z, ⟨rfl, hz, rfl⟩, rfl⟩,
    NameCheck.replay_singleton.mp hs₁⟩

theorem yields_printText {l t p z : Token} (hpulls : pulls = .ok l :: .ok t :: .ok p :: .ok z :: rest)
    (hl : l.kind = .lparen) (ht : t.kind = .string) (hp : p.kind = .rparen) (hz : z.kind = .semi) :
    (printing check last pulls).Yields s (.printText t.value) s rest := by
  subst hpulls
  simp only [printing, yields_bind, yields_eat, yields_look]
  refine ⟨l, s, _, by simp, ⟨rfl, hl, rfl⟩, t, rfl, ?_⟩
  simp only [ht, if_true, yields_bind, yields_eat, yields_map]
  exact ⟨t, s, _, by simp, ⟨rfl, ht, rfl⟩, p, s, _, by simp, ⟨rfl, hp, rfl⟩, z, ⟨rfl, hz, rfl⟩, rfl⟩

theorem yields_print {l p z : Token} (hpulls : pulls = .ok l :: (ts.map .ok ++ .ok p :: .ok z :: rest))
    (hl : l.kind = .lparen) (h : MakesChain (ts.map Token.word) c) (hp : p.kind = .rparen)
    (hz : z.kind = .semi) (hs : check.replay s c.tree.events = (none, s')) :
    (printing check last pulls).Yields s (.print c.tree) s' rest := by
  subst hpulls
  have hv := yields_expression last p (.ok z :: rest) h (by simp [hp]) hs
  simp only [printing, yields_bind, yields_eat, yields_look]
  refine ⟨l, s, _, by simp, ⟨rfl, hl, rfl⟩, ?_⟩
  obtain ⟨w, u, hts, hw⟩ := h.head
  obtain ⟨t, ts, rfl, rfl, _⟩ := List.map_eq_cons_iff.mp hts
  refine ⟨t, rfl, ?_⟩
  have ht : t.kind ≠ .string := fun ht => by simp [ht] at hw
  simp only [ht, if_false, yields_bind, yields_eat, yields_map]
  exact ⟨_, s', _, hv.1, hv, p, s', _, by simp, ⟨rfl, hp, rfl⟩, z, ⟨rfl, hz, rfl⟩, rfl⟩

theorem yields_bare {z : Token} (hpulls : pulls = ts.map .ok ++ .ok z :: rest)
    (h : MakesChain (ts.map Token.word) c) (hz : z.kind = .semi)
    (hs : check.replay s c.tree.events = (none, s')) :
    (statement check last pulls).Yields s c.tree s' rest := by
  subst hpulls
  have hv := yields_expression last z rest h (by simp [hz]) hs
  obtain ⟨w, u, hts, hw⟩ := h.head
  obtain ⟨t, ts, rfl, rfl, _⟩ := List.map_eq_cons_iff.mp hts
  rw [List.map_cons, List.cons_append] at hv ⊢
  rw [statement]
  split
  · next hk => simp [hk] at hw
  · next hk => simp [hk] at hw
  · next hk => simp [hk] at hw
  · simp only [yields_bind, yields_eat, yields_map]
    exact ⟨_, s', _, hv.1, hv, z, ⟨rfl, hz, rfl⟩, rfl⟩

theorem yields_branch {t l p : Token} {r : List Pull} {yes : List Node} {s₁ : σ}
    (hpulls : pulls = .ok t :: .ok l :: (ts.map .ok ++ .ok p :: r)) (ht : t.kind = .ifWord)
    (hl : l.kind = .lparen) (h : MakesChain (ts.map Token.word) c) (hp : p.kind = .rparen)
    (hs : check.replay s c.tree.events = (none, s₁))
    (hy : (block check last r).Yields s₁ yes s' rest) (hr : NoElse last rest) :
    (statement check last pulls).Yields s (.branch c.tree yes none) s' rest := by
  subst hpulls
  have hv := yields_expression last p r h (by simp [hp]) hs
  obtain ⟨t', ht', hne⟩ := hr
  rw [statement]
  simp only [ht, yields_loose, yields_bind, yields_andThen, yields_eat, yields_look]
  refine ⟨l, s, _, by simp, ⟨rfl, hl, rfl⟩, _, s₁, _, hv.1, hv, p, s₁, _, by simp,
    ⟨rfl, hp, rfl⟩, _, s', rest, hy.1, hy, t', ht', ?_⟩
  simp [hne]

theorem yields_branchElse {t l p e : Token} {r r' : List Pull} {yes no : List Node} {s₁ s₂ : σ}
    (hpulls : pulls = .ok t :: .ok l :: (ts.map .ok ++ .ok p :: r)) (ht : t.kind = .ifWord)
    (hl : l.kind = .lparen) (h : MakesChain (ts.map Token.word) c) (hp : p.kind = .rparen)
    (hs : check.replay s c.tree.events = (none, s₁))
    (hy : (block check last r).Yields s₁ yes s₂ (.ok e :: r')) (he : e.kind = .elseWord)
    (hn : (block check last r').Yields s₂ no s' rest) :
    (statement check last pulls).Yields s (.branch c.tree yes (some no)) s' rest := by
  subst hpulls
  have hv := yields_expression last p r h (by simp [hp]) hs
  rw [statement]
  simp only [ht, yields_loose, yields_bind, yields_andThen, yields_eat, yields_look]
  refine ⟨l, s, _, by simp, ⟨rfl, hl, rfl⟩, _, s₁, _, hv.1, hv, p, s₁, _, by simp,
    ⟨rfl, hp, rfl⟩, _, s₂, _, hy.1, hy, e, rfl, ?_⟩
  simp only [he, if_true, yields_loose, yields_bind, yields_eat, yields_map]
  exact ⟨e, s₂, _, by simp, ⟨rfl, he, rfl⟩, _, hn, rfl⟩

theorem yields_braces {l z : Token} {r : List Pull} {nodes : List Node}
    (hpulls : pulls = .ok l :: r) (hl : l.kind = .lbrace)
    (h : (statements check last .rbrace r).Yields s nodes s' (.ok z :: rest))
    (hz : z.kind = .rbrace) : (block check last pulls).Yields s nodes s' rest := by
  subst hpulls
  simp only [block, yields_bind, yields_finish, yields_eat, yields_map]
  exact ⟨l, s, _, by simp, ⟨rfl, hl, rfl⟩, _, s', _, h.1, h, z, ⟨rfl, hz, rfl⟩, rfl⟩

theorem yields_more {close : TokenKind} {t : Token} {r r' : List Pull} {node : Node}
    {nodes : List Node} {s₁ : σ} (hpulls : pulls = .ok t :: r) (hc : t.kind ≠ close)
    (he : t.kind ≠ .eof) (h : (statement check last pulls).Yields s node s₁ r')
    (hs : (statements check last close r').Yields s₁ nodes s' rest) :
    (statements check last close pulls).Yields s (node :: nodes) s' rest := by
  subst hpulls
  rw [statements, if_neg (not_or.mpr ⟨hc, he⟩)]
  simp only [yields_loose, yields_andThen, yields_map]
  exact ⟨node, s₁, r', h.1, h, _, hs, rfl⟩

/-! ## Derivations -/

section

variable (check last)

/-- Tokens of the words `u` are read as the statement. -/
def ReadsStatement (u : List Word) (node : Node) : Prop :=
  ∀ {ts : List Token} {s s' rest}, ts.map Token.word = u → NoElse last rest →
    check.replay s node.events = (none, s') →
      (statement check last (ts.map .ok ++ rest)).Yields s node s' rest

/-- Tokens of the words `u` are read as the block. -/
def ReadsBlock (u : List Word) (nodes : List Node) : Prop :=
  ∀ {ts : List Token} {s s' rest}, ts.map Token.word = u →
    check.replay s (Program.events nodes) = (none, s') →
      (block check last (ts.map .ok ++ rest)).Yields s nodes s' rest

/-- Tokens of the words `u` are read as the statements in front of what ends them. -/
def ReadsProgram (u : List Word) (nodes : List Node) : Prop :=
  ∀ {close} {ts : List Token} {s s' rest}, close = .rbrace ∨ close = .eof →
    ts.map Token.word = u → Closes last close rest →
      check.replay s (Program.events nodes) = (none, s') →
        (statements check last close (ts.map .ok ++ rest)).Yields s nodes s' rest

end

section

variable {w l n e p z : Word} {u v v' : List Word} {nodes yes no : List Node}

theorem readsStatement_declare (hw : w.kind = .int) (hn : n.kind = .ident) (hz : z.kind = .semi) :
    ReadsStatement check last [w, n, z] (.declare n.value none) := by
  intro ts s s' rest hts _ hs
  simp only [List.map_eq_cons_iff, List.map_eq_nil_iff] at hts
  obtain ⟨t, _, rfl, rfl, n, _, rfl, rfl, z, _, rfl, rfl, rfl⟩ := hts
  rw [List.map_cons, List.cons_append, statement]
  simp only [show t.kind = .int from hw, yields_loose]
  exact yields_declare (by simp) hn hz (NameCheck.replay_singleton.mp hs)

theorem readsStatement_initial (hw : w.kind = .int) (hn : n.kind = .ident) (he : e.kind = .assign)
    (h : MakesChain u c) (hz : z.kind = .semi) :
    ReadsStatement check last (w :: n :: e :: u ++ [z]) (.declare n.value (some c.tree)) := by
  intro ts s s' rest hts _ hs
  simp only [List.cons_append, List.map_eq_cons_iff, List.map_eq_append_iff,
    List.map_eq_nil_iff] at hts
  obtain ⟨t, _, rfl, rfl, n, _, rfl, rfl, e, _, rfl, rfl, ts, _, rfl, rfl, z, _, rfl, rfl, rfl⟩ := hts
  rw [List.map_cons, List.cons_append, statement]
  simp only [show t.kind = .int from hw, yields_loose]
  exact yields_initial (by simp) hn he h hz hs

theorem readsStatement_print (hw : w.kind = .print) (hl : l.kind = .lparen) (h : MakesChain u c)
    (hp : p.kind = .rparen) (hz : z.kind = .semi) :
    ReadsStatement check last (w :: l :: u ++ [p, z]) (.print c.tree) := by
  intro ts s s' rest hts _ hs
  simp only [List.cons_append, List.map_eq_cons_iff, List.map_eq_append_iff,
    List.map_eq_nil_iff] at hts
  obtain ⟨t, _, rfl, rfl, l, _, rfl, rfl, ts, _, rfl, rfl, p, _, rfl, rfl, z, _, rfl, rfl, rfl⟩ := hts
  rw [List.map_cons, List.cons_append, statement]
  simp only [show t.kind = .print from hw, yields_loose]
  exact yields_print (by simp) hl h hp hz hs

theorem readsStatement_printText (hw : w.kind = .print) (hl : l.kind = .lparen)
    (he : e.kind = .string) (hp : p.kind = .rparen) (hz : z.kind = .semi) :
    ReadsStatement check last [w, l, e, p, z] (.printText e.value) := by
  intro ts s s' rest hts _ hs
  simp only [List.map_eq_cons_iff, List.map_eq_nil_iff] at hts
  obtain ⟨t, _, rfl, rfl, l, _, rfl, rfl, e, _, rfl, rfl, p, _, rfl, rfl, z, _, rfl, rfl, rfl⟩ := hts
  rw [List.map_cons, List.cons_append, statement]
  simp only [show t.kind = .print from hw, yields_loose]
  cases hs
  exact yields_printText (by simp) hl he hp hz

theorem readsStatement_branch (hw : w.kind = .ifWord) (hl : l.kind = .lparen) (h : MakesChain u c)
    (hp : p.kind = .rparen) (hy : ReadsBlock check last v yes) :
    ReadsStatement check last (w :: l :: u ++ p :: v) (.branch c.tree yes none) := by
  intro ts s s' rest hts hr hs
  simp only [List.cons_append, List.map_eq_cons_iff, List.map_eq_append_iff] at hts
  obtain ⟨t, _, rfl, rfl, l, _, rfl, rfl, ts, _, rfl, rfl, p, us, rfl, rfl, hus⟩ := hts
  obtain ⟨s₁, hs, hs₁⟩ := NameCheck.replay_append_none.mp hs
  exact yields_branch (by simp) hw hl h hp hs (hy hus hs₁) hr

theorem readsStatement_branchElse (hw : w.kind = .ifWord) (hl : l.kind = .lparen)
    (h : MakesChain u c) (hp : p.kind = .rparen) (hy : ReadsBlock check last v yes)
    (he : e.kind = .elseWord) (hn : ReadsBlock check last v' no) :
    ReadsStatement check last (w :: l :: u ++ p :: v ++ e :: v')
      (.branch c.tree yes (some no)) := by
  intro ts s s' rest hts _ hs
  simp only [List.cons_append, List.append_assoc, List.map_eq_cons_iff,
    List.map_eq_append_iff] at hts
  obtain ⟨t, _, rfl, rfl, l, _, rfl, rfl, ts, _, rfl, rfl, p, _, rfl, rfl, us, _, rfl, hus, e, vs,
    rfl, rfl, hvs⟩ := hts
  obtain ⟨s₂, hs, hs₂⟩ := NameCheck.replay_append_none.mp hs
  obtain ⟨s₁, hs, hs₁⟩ := NameCheck.replay_append_none.mp hs
  exact yields_branchElse (by simp) hw hl h hp hs (hy hus hs₁) he (hn hvs hs₂)

theorem readsStatement_bare (h : MakesChain u c) (hz : z.kind = .semi) :
    ReadsStatement check last (u ++ [z]) c.tree := by
  intro ts s s' rest hts _ hs
  simp only [List.map_eq_cons_iff, List.map_eq_append_iff, List.map_eq_nil_iff] at hts
  obtain ⟨ts, _, rfl, rfl, z, _, rfl, rfl, rfl⟩ := hts
  exact yields_bare (by simp) h hz hs

theorem readsBlock_braces (hl : l.kind = .lbrace) (h : ReadsProgram check last u nodes)
    (hz : z.kind = .rbrace) : ReadsBlock check last (l :: u ++ [z]) nodes := by
  intro ts s s' rest hts hs
  simp only [List.cons_append, List.map_eq_cons_iff, List.map_eq_append_iff,
    List.map_eq_nil_iff] at hts
  obtain ⟨l, _, rfl, rfl, ts, _, rfl, hts, z, _, rfl, rfl, rfl⟩ := hts
  exact yields_braces (by simp) hl (h (.inl rfl) hts ⟨z, rfl, .inl hz⟩ hs) hz

theorem readsProgram_nil : ReadsProgram check last [] [] := by
  intro close ts s s' rest _ hts hr hs
  cases List.map_eq_nil_iff.mp hts
  cases hs
  exact yields_statements_of_closes hr

theorem readsProgram_cons {node : Node} (h : MakesStatement u node) (hm : MakesProgram v nodes)
    (ih : ReadsStatement check last u node) (ihm : ReadsProgram check last v nodes) :
    ReadsProgram check last (u ++ v) (node :: nodes) := by
  intro close ts s s' rest hc hts hr hs
  obtain ⟨ts₁, ts₂, rfl, hts₁, hts₂⟩ := List.map_eq_append_iff.mp hts
  obtain ⟨s₁, hs, hs₁⟩ := NameCheck.replay_append_none.mp hs
  have hne : close ≠ .elseWord := by rcases hc with rfl | rfl <;> simp
  have hn := ih hts₁ (noElse_of_makesProgram (hts₂ ▸ hm) (hr.noElse hne)) hs
  obtain ⟨w, u, rfl, hw⟩ := h.head
  obtain ⟨t, ts₁, rfl, rfl, _⟩ := List.map_eq_cons_iff.mp hts₁
  have hk : t.kind ≠ .rbrace ∧ t.kind ≠ .eof :=
    ⟨fun hk => by simp [hk] at hw, fun hk => by simp [hk] at hw⟩
  rw [List.map_append, List.append_assoc]
  refine yields_more rfl ?_ hk.2 hn (ihm hc hts₂ hr hs₁)
  rcases hc with rfl | rfl
  · exact hk.1
  · exact hk.2

theorem readsProgram_of_makesProgram (h : MakesProgram u nodes) :
    ReadsProgram check last u nodes :=
  @MakesProgram.rec (fun u node _ => ReadsStatement check last u node)
    (fun u nodes _ => ReadsBlock check last u nodes)
    (fun u nodes _ => ReadsProgram check last u nodes)
    readsStatement_declare readsStatement_initial readsStatement_print readsStatement_printText
    (fun hw hl h hp _ => readsStatement_branch hw hl h hp)
    (fun hw hl h hp _ he _ hy hn => readsStatement_branchElse hw hl h hp hy he hn)
    readsStatement_bare (fun hl _ hz h => readsBlock_braces hl h hz) readsProgram_nil
    readsProgram_cons u nodes h

end

/-- **Words that make a program are read as it.** -/
theorem yields_program {program : Program} (h : MakesProgram (ts.map Token.word) program)
    (hr : Closes last .eof rest) (hs : check.replay s (Program.events program) = (none, s')) :
    (Parse.program check last (ts.map .ok ++ rest)).Yields s program s' rest :=
  readsProgram_of_makesProgram h (.inr rfl) rfl hr hs

end IntLang.Parse
