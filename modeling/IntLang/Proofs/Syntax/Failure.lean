import IntLang.Proofs.Reading.Fails
import IntLang.Proofs.Syntax.Declarations

/-!
# Where parsing fails

A parser that fails has taken tokens from the front of the pulls and cannot go on. The names known by
then are those known before and those whose declarations are complete in the tokens taken.

* `Stuck`: why parsing cannot go on behind some words;
* `Stopped` says all this of one failure, one lemma for each parser;
* **`stopped_of_parse`**: what an error of a whole source tells.
-/

namespace IntLang

open TokenSource (peek)

variable {σ : Type}

/-- Behind the words, in front of the pulls `rest` and with the names `s`, parsing ends in the error. -/
inductive Stuck (check : NameCheck σ) (last : Token) (s : σ) (rest : List Pull) :
    List Word → CompileError → Prop
  /-- What comes next is no token. -/
  | fault {u : List Word} {e : CompileError} (h : peek last rest = .error e) :
    Stuck check last s rest u e
  | unexpected {u : List Word} {t : Token} {d : Option Detail} (h : peek last rest = .ok t) :
    Stuck check last s rest u (.unexpected t d)
  /-- The operand at the end is a name, or an assignment to it, and the name is refused. -/
  | uses {u v : List Word} {n : Word} {e : CompileError} (hn : n.kind = .ident)
    (hv : v = [] ∨ ∃ w v' c, v = w :: v' ∧ w.kind = .assign ∧ MakesChain v' c)
    (h : check s (.uses n.value) = .error e) : Stuck check last s rest (u ++ n :: v) e
  /-- The next semicolon would complete a declaration, and the name is refused. -/
  | declares {u v : List Word} {w n : Word} {z : Token} {e : CompileError} (hw : w.kind = .int)
    (hn : n.kind = .ident) (hv : Plain v) (hz : peek last rest = .ok z ∧ z.kind = .semi)
    (h : check s (.declares n.value) = .error e) : Stuck check last s rest (u ++ w :: n :: v) e

variable {check : NameCheck σ} {last : Token} {s s' s₁ : σ} {e : CompileError}
  {pulls rest rest₁ : List Pull}

theorem Stuck.behind {u : List Word} (v : List Word) (h : Stuck check last s rest u e) :
    Stuck check last s rest (v ++ u) e := by
  cases h with
  | fault h => exact .fault h
  | unexpected h => exact .unexpected h
  | uses hn hv h =>
    rw [← List.append_assoc]
    exact .uses hn hv h
  | declares hw hn hv hz h =>
    rw [← List.append_assoc]
    exact .declares hw hn hv hz h

variable (check last) in
/-- The tokens taken, with what their words and the names passed on the way have, and why parsing
stopped behind them. -/
def Stopped (pulls : List Pull) (s s' : σ) (e : CompileError)
    (D : List Word → List NameEvent → Prop) : Prop :=
  ∃ (ts : List Token) (rest : List Pull) (es : List NameEvent), pulls = ts.map .ok ++ rest ∧
    D (ts.map Token.word) es ∧ check.replay s es = (none, s') ∧
    Stuck check last s' rest (ts.map Token.word) e

namespace Stopped

variable {D D' : List Word → List NameEvent → Prop} {P : List Word → Prop} {es : List NameEvent}

theorem imp (h : Stopped check last pulls s s' e D) (hD : ∀ u es, D u es → D' u es) :
    Stopped check last pulls s s' e D' := by
  obtain ⟨ts, rest, es, hp, hd, hs, hstuck⟩ := h
  exact ⟨ts, rest, es, hp, hD _ _ hd, hs, hstuck⟩

/-- A failure behind what was taken before. -/
theorem behind (h : Took check pulls rest₁ s s₁ P es) (h' : Stopped check last rest₁ s₁ s' e D)
    (hD : ∀ u v fs, P u → D v fs → D' (u ++ v) (es ++ fs)) : Stopped check last pulls s s' e D' := by
  obtain ⟨ts, rfl, hu, hs⟩ := h
  obtain ⟨ts', rest, fs, rfl, hv, hs', hstuck⟩ := h'
  refine ⟨ts ++ ts', rest, es ++ fs, by simp, ?_, NameCheck.replay_append_none.mpr ⟨s₁, hs, hs'⟩, ?_⟩
  · rw [List.map_append]
    exact hD _ _ _ hu hv
  · rw [List.map_append]
    exact hstuck.behind _

/-- A failure in front of everything. -/
theorem here (hp : peek last pulls = .error e ∨ ∃ t d, peek last pulls = .ok t ∧ e = .unexpected t d)
    (hD : D [] []) : Stopped check last pulls s s e D := by
  refine ⟨[], pulls, [], rfl, hD, rfl, ?_⟩
  obtain hp | ⟨t, d, hp, rfl⟩ := hp
  · exact .fault hp
  · exact .unexpected hp

/-- A failure behind one token, which completes nothing. -/
theorem single (t : Token)
    (hp : peek last pulls = .error e ∨ ∃ t d, peek last pulls = .ok t ∧ e = .unexpected t d) :
    Stopped check last (.ok t :: pulls) s s e fun u es => declaredBy es = declarations u :=
  (here (D := fun u es => u = [] ∧ es = []) hp ⟨rfl, rfl⟩).behind (Took.one t) (by
    rintro _ _ _ rfl ⟨rfl, rfl⟩
    rfl)

end Stopped

namespace Parse

open Reading

/-! ## Expressions -/

/-- A part of an expression declares nothing. -/
def Undeclaring (u : List Word) (es : List NameEvent) : Prop := Plain u ∧ declaredBy es = []

theorem undeclaring_nil : Undeclaring [] [] := ⟨List.forall_mem_nil _, rfl⟩

theorem Undeclaring.append {u v : List Word} {es fs : List NameEvent} (hu : Undeclaring u es)
    (hv : Undeclaring v fs) : Undeclaring (u ++ v) (es ++ fs) :=
  ⟨hu.1.append hv.1, by rw [declaredBy_append, hu.2, hv.2]; rfl⟩

theorem undeclaring_of_makesChain {u : List Word} {c : Chain} (h : MakesChain u c) :
    Undeclaring u c.events := plain_of_makesChain h

theorem undeclaring_token {t : Token} (ht : t.kind ≠ .int ∧ t.kind ≠ .semi) :
    Undeclaring [t.word] [] := ⟨.cons ht (List.forall_mem_nil _), rfl⟩

theorem stopped_token {t : Token} (ht : t.kind ≠ .int ∧ t.kind ≠ .semi)
    (h : Stopped check last pulls s s' e Undeclaring) :
    Stopped check last (.ok t :: pulls) s s' e Undeclaring := by
  refine h.behind (Took.one t) ?_
  rintro _ v fs rfl hv
  exact (undeclaring_token ht).append hv

theorem ne_of_binary? {t : Token} {op : BinaryOp} (h : t.kind.binary? = some op) :
    t.kind ≠ .int ∧ t.kind ≠ .semi := by
  constructor <;> intro hk <;> rw [hk] at h <;> cases h

mutual

theorem stopped_chain (pulls : List Pull) : ∀ {s e s'}, (chain check last pulls).Fails s e s' →
    Stopped check last pulls s s' e Undeclaring := by
  unfold chain
  match pulls with
  | [] =>
    intro s e s' h
    obtain ⟨rfl, rfl⟩ := fails_fail.mp h
    exact .here (.inr ⟨last, none, rfl, rfl⟩) undeclaring_nil
  | .error e :: _ =>
    intro s e s' h
    obtain ⟨rfl, rfl⟩ := fails_fail.mp h
    exact .here (.inl rfl) undeclaring_nil
  | .ok t :: pulls =>
    intro s e s' h
    dsimp only at h
    split at h
    · next hk =>
      simp only [fails_loose, fails_map] at h
      exact stopped_token (by simp [hk]) (stopped_chain pulls h)
    · next hk => exact stopped_token (by simp [hk]) (stopped_tail _ pulls h)
    · next hk =>
      have ht : t.kind ≠ .int ∧ t.kind ≠ .semi := by simp [hk]
      obtain ⟨hp, rfl⟩ | ⟨t', ht', h⟩ := fails_look.mp h
      · exact stopped_token ht (.here (.inl hp) undeclaring_nil)
      split at h
      · simp only [fails_loose, fails_bind, fails_followed, fails_map, yields_eat, yields_map] at h
        obtain h | ⟨a, s₁, r, _, ⟨rfl, ha, rfl⟩, h | ⟨_, rest, ⟨c, hc, rfl⟩, hn⟩⟩ := h
        · obtain ⟨rfl, hp⟩ := fails_eat h
          exact stopped_token ht (.here hp undeclaring_nil)
        · exact stopped_token ht (stopped_token (by simp [ha]) (stopped_chain r h))
        · obtain ⟨ts, rfl, hu, hs⟩ := took_chain check last r hc
          have hc := undeclaring_of_makesChain hu
          have hplain : Plain (t.word :: a.word :: ts.map Token.word) :=
            .cons ht (.cons (by simp [ha]) hc.1)
          refine ⟨t :: a :: ts, rest, c.events, rfl, ⟨hplain, hc.2⟩, hs, ?_⟩
          exact .uses (u := []) hk (.inr ⟨_, _, c, rfl, ha, hu⟩) hn
      · obtain ⟨hn, rfl⟩ | ⟨s₁, hs, h⟩ := fails_after.mp h
        · exact ⟨[t], pulls, [], rfl, undeclaring_token ht, rfl, .uses (u := []) hk (.inl rfl) hn⟩
        · refine (stopped_tail _ pulls h).behind (((Took.nothing rfl).eventFirst hs).token t) ?_
          rintro _ v fs ⟨_, rfl, rfl⟩ hv
          exact (undeclaring_token ht).append hv
    · next hk =>
      have ht : t.kind ≠ .int ∧ t.kind ≠ .semi := by simp [hk]
      simp only [fails_loose, fails_bind, fails_andThen, yields_eat] at h
      obtain h | ⟨c, s₁, r, _, hc, h | ⟨a, _, r', _, ⟨rfl, ha, rfl⟩, h⟩⟩ := h
      · exact stopped_token ht (stopped_chain pulls h)
      · obtain ⟨rfl, hp⟩ := fails_eat h
        have : Stopped check last r s₁ s₁ e Undeclaring := .here hp undeclaring_nil
        refine stopped_token ht (this.behind (took_chain check last pulls hc) ?_)
        exact fun u v fs hu hv => (undeclaring_of_makesChain hu).append hv
      · have := stopped_token (t := a) (by simp [ha]) (stopped_tail c.tree r' h)
        refine stopped_token ht (this.behind (took_chain check last pulls hc) ?_)
        exact fun u v fs hu hv => (undeclaring_of_makesChain hu).append hv
    · obtain ⟨rfl, rfl⟩ := fails_fail.mp h
      exact .here (.inr ⟨t, none, rfl, rfl⟩) undeclaring_nil
termination_by pulls.length

theorem stopped_tail (operand : Node) (pulls : List Pull) : ∀ {s e s'},
    (tail check last operand pulls).Fails s e s' → Stopped check last pulls s s' e Undeclaring := by
  unfold tail
  match pulls with
  | [] => simp
  | .error e :: _ =>
    intro s e s' h
    obtain ⟨rfl, rfl⟩ := fails_fail.mp h
    exact .here (.inl rfl) undeclaring_nil
  | .ok t :: pulls =>
    intro s e s' h
    dsimp only at h
    split at h
    · next op hk =>
      simp only [fails_loose, fails_map] at h
      exact stopped_token (ne_of_binary? hk) (stopped_chain pulls h)
    · exact absurd h (fails_stay _ _)
termination_by pulls.length

end

theorem stopped_expression {pulls : List Pull} {s : σ} {e : CompileError} {s' : σ}
    (h : (expression check last pulls).Fails s e s') :
    Stopped check last pulls s s' e Undeclaring := stopped_chain pulls (fails_map.mp h)

theorem undeclaring_behind {node : Node} {s : σ}
    (h : (expression check last pulls).Yields s node s₁ rest)
    (h' : Stopped check last rest s₁ s' e Undeclaring) :
    Stopped check last pulls s s' e Undeclaring := by
  obtain ⟨c, rfl, hc⟩ := took_expression check last pulls h
  refine h'.behind hc fun u v fs hu hv => ?_
  rw [Chain.events_tree]
  exact (undeclaring_of_makesChain hu).append hv

/-! ## Statements -/

/-- The declarations that are complete in the words are those passed on the way. -/
def Completed (u : List Word) (es : List NameEvent) : Prop := declaredBy es = declarations u

theorem Undeclaring.completed {u : List Word} {es : List NameEvent} (h : Undeclaring u es) :
    Completed u es := by
  have hu := h.1.declares []
  rw [List.append_nil] at hu
  rw [Completed, h.2, hu]
  rfl

theorem completed_behind {P : List Word → Prop} {es : List NameEvent}
    (h : Took check pulls rest₁ s s₁ P es) (hP : ∀ u, P u → Declares u (declaredBy es))
    (h' : Stopped check last rest₁ s₁ s' e Completed) : Stopped check last pulls s s' e Completed := by
  refine h'.behind h fun u v fs hu hv => ?_
  rw [Completed, declaredBy_append, hP u hu, show declaredBy fs = _ from hv]

theorem completed_token {t : Token} (ht : t.kind ≠ .int)
    (h : Stopped check last pulls s s' e Completed) :
    Stopped check last (.ok t :: pulls) s s' e Completed := by
  refine completed_behind (Took.one t) ?_ h
  rintro _ rfl
  exact .cons ht fun _ => rfl

/-- A declaration that lacks its semicolon. -/
theorem completed_open {t n : Token} (hn : n.kind = .ident)
    (h : Stopped check last pulls s s' e Undeclaring) :
    Stopped check last (.ok t :: .ok n :: pulls) s s' e Completed := by
  refine h.behind ((Took.one n).token t) ?_
  rintro _ v fs ⟨_, rfl, rfl⟩ ⟨hv, hfs⟩
  exact hfs.trans (declarations_open hn hv).symm

theorem stopped_declaration {t : Token} (ht : t.kind = .int) {pulls : List Pull} {s : σ}
    {e : CompileError} {s' : σ} (h : (declaration check last pulls).Fails s e s') :
    Stopped check last (.ok t :: pulls) s s' e Completed := by
  simp only [declaration, fails_bind, yields_eat, fails_look] at h
  obtain h | ⟨n, _, r, _, ⟨rfl, hn, rfl⟩, ⟨hp, rfl⟩ | ⟨next, _, h⟩⟩ := h
  · obtain ⟨rfl, hp⟩ := fails_eat h
    exact .single t hp
  · exact completed_open hn (.here (.inl hp) undeclaring_nil)
  split at h
  · simp only [fails_bind, fails_followed, fails_map, yields_eat, yields_map] at h
    obtain h | ⟨a, _, r, _, ⟨rfl, ha, rfl⟩, h | ⟨value, s₁, r', _, hv, h⟩⟩ := h
    · obtain ⟨rfl, hp⟩ := fails_eat h
      exact completed_open hn (.here hp undeclaring_nil)
    · exact completed_open hn (stopped_token (by simp [ha]) (stopped_expression h))
    obtain h | ⟨_, rest, ⟨z, ⟨rfl, hz, rfl⟩, rfl⟩, hd⟩ := h
    · obtain ⟨rfl, hp⟩ := fails_eat h
      exact completed_open hn (stopped_token (by simp [ha])
        (undeclaring_behind hv (.here hp undeclaring_nil)))
    · obtain ⟨c, rfl, ts, rfl, hu, hs⟩ := took_expression check last r hv
      have hc := undeclaring_of_makesChain hu
      have hplain : Plain (a.word :: ts.map Token.word) := .cons (by simp [ha]) hc.1
      refine ⟨t :: n :: a :: ts, .ok z :: rest, _, rfl, ?_, hs, ?_⟩
      · rw [Completed, Chain.events_tree, hc.2]
        exact (declarations_open hn hplain).symm
      · exact .declares (u := []) ht hn hplain ⟨rfl, hz⟩ hd
  · simp only [fails_followed, fails_map, yields_eat, yields_map] at h
    obtain h | ⟨_, rest, ⟨z, ⟨rfl, hz, rfl⟩, rfl⟩, hd⟩ := h
    · obtain ⟨rfl, hp⟩ := fails_eat h
      exact completed_open hn (.here hp undeclaring_nil)
    · refine ⟨[t, n], .ok z :: rest, [], rfl, ?_, rfl, ?_⟩
      · exact (declarations_open hn (List.forall_mem_nil _)).symm
      · exact .declares (u := []) ht hn (List.forall_mem_nil _) ⟨rfl, hz⟩ hd

theorem stopped_printing {pulls : List Pull} {s : σ} {e : CompileError} {s' : σ}
    (h : (printing check last pulls).Fails s e s') :
    Stopped check last pulls s s' e Undeclaring := by
  simp only [printing, fails_bind, yields_eat, fails_look] at h
  obtain h | ⟨l, _, r, _, ⟨rfl, hl, rfl⟩, ⟨hp, rfl⟩ | ⟨next, _, h⟩⟩ := h
  · obtain ⟨rfl, hp⟩ := fails_eat h
    exact .here hp undeclaring_nil
  · exact stopped_token (by simp [hl]) (.here (.inl hp) undeclaring_nil)
  split at h
  · simp only [fails_bind, fails_map, yields_eat] at h
    obtain h | ⟨a, _, r, _, ⟨rfl, ha, rfl⟩, h | ⟨b, _, r, _, ⟨rfl, hb, rfl⟩, h⟩⟩ := h
    · obtain ⟨rfl, hp⟩ := fails_eat h
      exact stopped_token (by simp [hl]) (.here hp undeclaring_nil)
    · obtain ⟨rfl, hp⟩ := fails_eat h
      exact stopped_token (by simp [hl]) (stopped_token (by simp [ha]) (.here hp undeclaring_nil))
    · obtain ⟨rfl, hp⟩ := fails_eat h
      exact stopped_token (by simp [hl]) (stopped_token (by simp [ha])
        (stopped_token (by simp [hb]) (.here hp undeclaring_nil)))
  · simp only [fails_bind, fails_map, yields_eat] at h
    obtain h | ⟨value, s₁, r, _, hv, h | ⟨b, _, r, _, ⟨rfl, hb, rfl⟩, h⟩⟩ := h
    · exact stopped_token (by simp [hl]) (stopped_expression h)
    · obtain ⟨rfl, hp⟩ := fails_eat h
      exact stopped_token (by simp [hl]) (undeclaring_behind hv (.here hp undeclaring_nil))
    · obtain ⟨rfl, hp⟩ := fails_eat h
      exact stopped_token (by simp [hl]) (undeclaring_behind hv
        (stopped_token (by simp [hb]) (.here hp undeclaring_nil)))

/-- What fails behind an expression. -/
theorem completed_expression {node : Node}
    (h : (expression check last pulls).Yields s node s₁ rest)
    (h' : Stopped check last rest s₁ s' e Completed) : Stopped check last pulls s s' e Completed := by
  obtain ⟨c, rfl, hc⟩ := took_expression check last pulls h
  refine completed_behind hc (fun u hu => ?_) h'
  obtain ⟨hu, hes⟩ := undeclaring_of_makesChain hu
  rw [Chain.events_tree, hes]
  exact hu.declares

/-- What fails in front of anything that was taken. -/
theorem completed_here
    (hp : peek last pulls = .error e ∨ ∃ t d, peek last pulls = .ok t ∧ e = .unexpected t d) :
    Stopped check last pulls s s e Completed := .here hp rfl

mutual

theorem stopped_statement (pulls : List Pull) : ∀ {s e s'},
    (statement check last pulls).Fails s e s' → Stopped check last pulls s s' e Completed := by
  unfold statement
  match pulls with
  | [] =>
    intro s e s' h
    obtain ⟨rfl, rfl⟩ := fails_fail.mp h
    exact completed_here (.inr ⟨last, none, rfl, rfl⟩)
  | .error e :: _ =>
    intro s e s' h
    obtain ⟨rfl, rfl⟩ := fails_fail.mp h
    exact completed_here (.inl rfl)
  | .ok t :: pulls =>
    intro s e s' h
    dsimp only at h
    split at h
    · next hk => exact stopped_declaration hk (fails_loose.mp h)
    · next hk =>
      exact completed_token (by simp [hk])
        ((stopped_printing (fails_loose.mp h)).imp fun _ _ => Undeclaring.completed)
    · next hk =>
      have ht : t.kind ≠ .int := by simp [hk]
      simp only [fails_loose, fails_bind, fails_andThen, yields_eat, fails_look] at h
      obtain h | ⟨l, _, r, _, ⟨rfl, hl, rfl⟩, h⟩ := h
      · obtain ⟨rfl, hp⟩ := fails_eat h
        exact completed_token ht (completed_here hp)
      refine completed_token ht (completed_token (by simp [hl]) ?_)
      obtain h | ⟨condition, s₁, r', _, hc, h⟩ := h
      · exact (stopped_expression h).imp fun _ _ => Undeclaring.completed
      refine completed_expression hc ?_
      obtain h | ⟨p, _, r'', _, ⟨rfl, hp, rfl⟩, h⟩ := h
      · obtain ⟨rfl, hp⟩ := fails_eat h
        exact completed_here hp
      refine completed_token (by simp [hp]) ?_
      obtain h | ⟨yes, s₂, r₃, _, hy, h⟩ := h
      · exact stopped_block r'' h
      refine completed_behind (took_block check last r'' hy) (fun _ => declares_of_makesBlock) ?_
      obtain ⟨hp, rfl⟩ | ⟨next, _, h⟩ := h
      · exact completed_here (.inl hp)
      split at h
      · simp only [fails_loose, fails_bind, fails_map, yields_eat] at h
        obtain h | ⟨o, _, r₄, _, ⟨rfl, ho, rfl⟩, h⟩ := h
        · obtain ⟨rfl, hp⟩ := fails_eat h
          exact completed_here hp
        · exact completed_token (by simp [ho]) (stopped_block r₄ h)
      · exact absurd h (fails_stay _ _)
    · simp only [fails_bind, fails_map] at h
      obtain h | ⟨value, s₁, r, _, hv, h⟩ := h
      · exact (stopped_expression h).imp fun _ _ => Undeclaring.completed
      · obtain ⟨rfl, hp⟩ := fails_eat h
        exact completed_expression hv (completed_here hp)
termination_by 2 * pulls.length

theorem stopped_block (pulls : List Pull) : ∀ {s e s'},
    (block check last pulls).Fails s e s' → Stopped check last pulls s s' e Completed := by
  unfold block
  intro s e s' h
  simp only [fails_bind, fails_finish, fails_map, yields_eat] at h
  obtain h | ⟨l, _, r, _, ⟨rfl, hl, rfl⟩, h | ⟨body, s₁, r', _, hb, h⟩⟩ := h
  · obtain ⟨rfl, hp⟩ := fails_eat h
    exact completed_here hp
  · exact completed_token (by simp [hl]) (stopped_statements .rbrace r h)
  · obtain ⟨rfl, hp⟩ := fails_eat h
    exact completed_token (by simp [hl]) (completed_behind (took_statements check last .rbrace r hb)
      (fun _ => declares_of_makesProgram) (completed_here hp))
termination_by 2 * pulls.length

theorem stopped_statements (close : TokenKind) (pulls : List Pull) : ∀ {s e s'},
    (statements check last close pulls).Fails s e s' →
      Stopped check last pulls s s' e Completed := by
  unfold statements
  match pulls with
  | [] => simp
  | .error e :: _ =>
    intro s e s' h
    obtain ⟨rfl, rfl⟩ := fails_fail.mp h
    exact completed_here (.inl rfl)
  | .ok t :: pulls =>
    intro s e s' h
    dsimp only at h
    split at h
    · exact absurd h (fails_stay _ _)
    · simp only [fails_loose, fails_andThen, fails_map] at h
      obtain h | ⟨node, s₁, r, _, hn, h⟩ := h
      · exact stopped_statement _ h
      · exact completed_behind (took_statement check last _ hn) (fun _ => declares_of_makesStatement)
          (stopped_statements close r h)
termination_by 2 * pulls.length + 1
decreasing_by all_goals (simp only [List.length_cons] at *; omega)

end

end Parse

/-! ## Sources -/

/-- **Where the compilation of a source stops**: it has taken tokens off the front, the names grew by
the declarations complete in them, and behind them it cannot go on. -/
theorem stopped_of_parse {source : TokenSource} {scope scope' : Scope} {e : CompileError}
    (h : parse source scope = (.error e, scope')) :
    ∃ (ts : List Token) (rest : List Pull), source.pulls = ts.map .ok ++ rest ∧
      scope'.names = scope.names ++ declarations (ts.map Token.word) ∧
      Stuck Scope.apply source.last scope' rest (ts.map Token.word) e := by
  have hf : (Parse.program Scope.apply source.last source.pulls).Fails scope e scope' := by
    unfold parse at h
    dsimp only at h
    rcases hr : Parse.program _ _ _ scope with ⟨s', e₁ | ⟨a, rest⟩⟩
    · rw [hr] at h
      cases h
      exact hr
    · rw [hr] at h
      cases h
  obtain ⟨ts, rest, es, hp, hd, hs, hstuck⟩ := Parse.stopped_statements .eof source.pulls hf
  refine ⟨ts, rest, hp, ?_, hstuck⟩
  rw [← show declaredBy es = _ from hd]
  exact (NameCheck.replay_names hs).1

end IntLang
