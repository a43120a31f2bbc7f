import IntLang.Proofs.Reading.Yields
import IntLang.Proofs.Syntax.Words

/-!
# What is read is made of the words taken

Whatever a parser yields, the words of the tokens it took make that part of a program, no token is
lost between them and what is left, and the names of the part passed the check in walking order.

* `Took` says so of one part;
* **`took_program`**: of a whole program.
-/

namespace IntLang

variable {σ : Type} {check : NameCheck σ}

variable (check) in
/-- The tokens between two lists of pulls, with what their words have, and the names in them passed
from one state to another. -/
def Took (pulls rest : List Pull) (s s' : σ) (P : List Word → Prop) (es : List NameEvent) : Prop :=
  ∃ ts : List Token, pulls = ts.map .ok ++ rest ∧ P (ts.map Token.word) ∧
    check.replay s es = (none, s')

variable {s s' s₁ : σ} {pulls rest rest₁ : List Pull} {P Q : List Word → Prop}
  {es fs : List NameEvent}

theorem Took.imp (h : Took check pulls rest s s' P es) (he : es = fs) (hq : ∀ u, P u → Q u) :
    Took check pulls rest s s' Q fs := by
  obtain ⟨ts, hp, hu, hs⟩ := h
  exact ⟨ts, hp, hq _ hu, he ▸ hs⟩

theorem Took.append (h : Took check pulls rest₁ s s₁ P es) (h' : Took check rest₁ rest s₁ s' Q fs) :
    Took check pulls rest s s' (fun w => ∃ u v, w = u ++ v ∧ P u ∧ Q v) (es ++ fs) := by
  obtain ⟨ts, rfl, hu, hs⟩ := h
  obtain ⟨ts', rfl, hv, hs'⟩ := h'
  exact ⟨ts ++ ts', by simp, ⟨_, _, by simp, hu, hv⟩,
    NameCheck.replay_append_none.mpr ⟨s₁, hs, hs'⟩⟩

theorem Took.token (t : Token) (h : Took check pulls rest s s' P es) :
    Took check (.ok t :: pulls) rest s s' (fun w => ∃ u, w = t.word :: u ∧ P u) es := by
  obtain ⟨ts, rfl, hu, hs⟩ := h
  exact ⟨t :: ts, by simp, ⟨_, by simp, hu⟩, hs⟩

theorem Took.nothing (hp : P []) : Took check pulls pulls s s P [] := ⟨[], by simp, hp, rfl⟩

theorem Took.one (t : Token) : Took check (.ok t :: pulls) pulls s s (· = [t.word]) [] :=
  ⟨[t], rfl, rfl, rfl⟩

theorem Took.event {e : NameEvent} (h : Took check pulls rest s s₁ P es)
    (he : check s₁ e = .ok s') : Took check pulls rest s s' P (es ++ [e]) := by
  obtain ⟨ts, hp, hu, hs⟩ := h
  exact ⟨ts, hp, hu,
    NameCheck.replay_append_none.mpr ⟨s₁, hs, NameCheck.replay_singleton.mpr he⟩⟩

theorem Took.eventFirst {e : NameEvent} (he : check s e = .ok s₁)
    (h : Took check pulls rest s₁ s' P es) : Took check pulls rest s s' P (e :: es) := by
  obtain ⟨ts, hp, hu, hs⟩ := h
  exact ⟨ts, hp, hu, by simp only [NameCheck.replay, he, hs]⟩

namespace Parse

open Reading

@[simp] theorem events_numberNode (value : UnitText) : (numberNode value).events = [] := by
  unfold numberNode
  split <;> rfl

variable (check) (last : Token)

/-! ## Expressions -/

mutual

theorem took_chain (pulls : List Pull) : ∀ {c s s' rest},
    (chain check last pulls).Yields s c s' rest →
      Took check pulls rest s s' (MakesChain · c) c.events := by
  unfold chain
  match pulls with
  | [] => simp
  | .error e :: _ => simp
  | .ok t :: pulls =>
    intro c s s' rest h
    dsimp only at h
    split at h
    · next hk =>
      simp only [yields_loose, yields_map] at h
      obtain ⟨c, hc, rfl⟩ := h
      refine ((took_chain pulls hc).token t).imp rfl ?_
      rintro _ ⟨u, rfl, hu⟩
      exact .negate hk hu
    · next hk =>
      obtain ⟨more, rfl, hm⟩ := took_tail _ pulls h
      refine (hm.token t).imp (by simp [Chain.events]) ?_
      rintro _ ⟨u, rfl, hu⟩
      exact .number hk hu
    · next hk =>
      obtain ⟨t', ht', h⟩ := yields_look.mp h
      split at h
      · simp only [yields_loose, yields_bind, yields_eat, yields_followed, yields_map] at h
        obtain ⟨e, s₁, r, _, ⟨rfl, he, rfl⟩, s₂, ⟨c, hc, rfl⟩, hs⟩ := h
        refine ((((took_chain r hc).token e).token t).event hs).imp ?_ ?_
        · rw [Chain.events_alone, Node.events, Chain.events_tree]
        · rintro _ ⟨_, rfl, u, rfl, hu⟩
          exact .assign hk he hu
      · obtain ⟨s₁, hs, h⟩ := yields_after.mp h
        obtain ⟨more, rfl, hm⟩ := took_tail _ pulls h
        refine ((hm.token t).eventFirst hs).imp (by simp [Chain.events, Node.events]) ?_
        rintro _ ⟨u, rfl, hu⟩
        exact .name hk hu
    · next hk =>
      simp only [yields_loose, yields_bind, yields_andThen, yields_eat] at h
      obtain ⟨c₁, s₁, r, _, hc, e, s₂, r', _, ⟨rfl, he, rfl⟩, ht⟩ := h
      obtain ⟨more, rfl, hm⟩ := took_tail _ r' ht
      refine (((took_chain pulls hc).append (hm.token e)).token t).imp ?_ ?_
      · simp [Chain.events, Chain.events_tree]
      · rintro _ ⟨_, rfl, u, _, rfl, hu, v, rfl, hv⟩
        exact .group hk hu he hv
    · simp at h
termination_by pulls.length

theorem took_tail (operand : Node) (pulls : List Pull) : ∀ {c s s' rest},
    (tail check last operand pulls).Yields s c s' rest →
      ∃ more, c = ⟨operand, more⟩ ∧
        Took check pulls rest s s' (MakesTail · more) (Chain.moreEvents more) := by
  unfold tail
  match pulls with
  | [] =>
    intro c s s' rest h
    obtain ⟨rfl, rfl, rfl⟩ := yields_stay.mp h
    exact ⟨[], rfl, .nothing .stop⟩
  | .error e :: _ => simp
  | .ok t :: pulls =>
    intro c s s' rest h
    dsimp only at h
    split at h
    · next op hk =>
      simp only [yields_loose, yields_map] at h
      obtain ⟨c, hc, rfl⟩ := h
      refine ⟨_, rfl, ((took_chain pulls hc).token t).imp rfl ?_⟩
      rintro _ ⟨u, rfl, hu⟩
      exact .more hk hu
    · obtain ⟨rfl, rfl, rfl⟩ := yields_stay.mp h
      exact ⟨[], rfl, .nothing .stop⟩
termination_by pulls.length

end

theorem took_expression (pulls : List Pull) {node : Node} {s s' : σ} {rest : List Pull}
    (h : (expression check last pulls).Yields s node s' rest) :
    ∃ c : Chain, node = c.tree ∧ Took check pulls rest s s' (MakesChain · c) node.events := by
  obtain ⟨c, hc, rfl⟩ := yields_map.mp h
  exact ⟨c, rfl, (took_chain check last pulls hc).imp (Chain.events_tree c).symm fun _ => id⟩

/-! ## Statements -/

theorem took_declaration (pulls : List Pull) {node : Node} {s s' : σ} {rest : List Pull}
    (h : (declaration check last pulls).Yields s node s' rest) :
    Took check pulls rest s s' (fun u => ∀ w : Word, w.kind = .int → MakesStatement (w :: u) node)
      node.events := by
  simp only [declaration, yields_bind, yields_eat, yields_look] at h
  obtain ⟨n, _, r, _, ⟨rfl, hn, rfl⟩, t, _, h⟩ := h
  split at h
  · simp only [yields_bind, yields_eat, yields_followed, yields_map] at h
    obtain ⟨e, _, r, _, ⟨rfl, he, rfl⟩, _, s₁, _, _, hv, _, ⟨z, ⟨rfl, hz, rfl⟩, rfl⟩, hs⟩ := h
    obtain ⟨c, rfl, hc⟩ := took_expression check last r hv
    refine ((((hc.append (.one z)).token e).token n).event hs).imp (by simp [Node.events]) ?_
    rintro _ ⟨_, rfl, _, rfl, u, _, rfl, hu, rfl⟩ w hw
    exact .initial hw hn he hu hz
  · simp only [yields_eat, yields_followed, yields_map] at h
    obtain ⟨_, ⟨z, ⟨rfl, hz, rfl⟩, rfl⟩, hs⟩ := h
    refine (((Took.one z).token n).event hs).imp rfl ?_
    rintro _ ⟨_, rfl, rfl⟩ w hw
    exact .declare hw hn hz

theorem took_printing (pulls : List Pull) {node : Node} {s s' : σ} {rest : List Pull}
    (h : (printing check last pulls).Yields s node s' rest) :
    Took check pulls rest s s' (fun u => ∀ w : Word, w.kind = .print → MakesStatement (w :: u) node)
      node.events := by
  simp only [printing, yields_bind, yields_eat, yields_look] at h
  obtain ⟨l, _, r, _, ⟨rfl, hl, rfl⟩, t, _, h⟩ := h
  split at h
  · simp only [yields_bind, yields_eat, yields_map] at h
    obtain ⟨e, _, _, _, ⟨rfl, he, rfl⟩, p, _, _, _, ⟨rfl, hp, rfl⟩, z, ⟨rfl, hz, rfl⟩, rfl⟩ := h
    refine ((((Took.one z).token p).token e).token l).imp rfl ?_
    rintro _ ⟨_, rfl, _, rfl, _, rfl, rfl⟩ w hw
    exact .printText hw hl he hp hz
  · simp only [yields_bind, yields_eat, yields_map] at h
    obtain ⟨_, s₁, _, _, hv, p, _, _, _, ⟨rfl, hp, rfl⟩, z, ⟨rfl, hz, rfl⟩, rfl⟩ := h
    obtain ⟨c, rfl, hc⟩ := took_expression check last r hv
    refine ((hc.append ((Took.one z).token p)).token l).imp (by simp [Node.events]) ?_
    rintro _ ⟨_, rfl, u, _, rfl, hu, _, rfl, rfl⟩ w hw
    exact .print hw hl hu hp hz

mutual

theorem took_statement (pulls : List Pull) : ∀ {node s s' rest},
    (statement check last pulls).Yields s node s' rest →
      Took check pulls rest s s' (MakesStatement · node) node.events := by
  unfold statement
  match pulls with
  | [] => simp
  | .error e :: _ => simp
  | .ok t :: pulls =>
    intro node s s' rest h
    dsimp only at h
    split at h
    · next hk =>
      refine ((took_declaration check last pulls (yields_loose.mp h)).token t).imp rfl ?_
      rintro _ ⟨u, rfl, hu⟩
      exact hu _ hk
    · next hk =>
      refine ((took_printing check last pulls (yields_loose.mp h)).token t).imp rfl ?_
      rintro _ ⟨u, rfl, hu⟩
      exact hu _ hk
    · next hk =>
      simp only [yields_loose, yields_bind, yields_andThen, yields_eat, yields_look] at h
      obtain ⟨l, _, _, _, ⟨rfl, hl, rfl⟩, _, s₁, _, _, hv, p, _, r, _, ⟨rfl, hp, rfl⟩, yes, s₂, r', _,
        hy, t', _, h⟩ := h
      obtain ⟨c, rfl, hc⟩ := took_expression check last _ hv
      split at h
      · simp only [yields_loose, yields_bind, yields_eat, yields_map] at h
        obtain ⟨e, _, r'', _, ⟨rfl, he, rfl⟩, no, hn, rfl⟩ := h
        refine ((((hc.append ((took_block r hy).token p)).append ((took_block r'' hn).token e)).token
          l).token t).imp rfl ?_
        rintro _ ⟨_, rfl, _, rfl, _, _, rfl, ⟨u, _, rfl, hu, v, rfl, hv⟩, v', rfl, hv'⟩
        exact .branchElse hk hl hu hp hv he hv'
      · obtain ⟨rfl, rfl, rfl⟩ := yields_stay.mp h
        refine (((hc.append ((took_block r hy).token p)).token l).token t).imp rfl ?_
        rintro _ ⟨_, rfl, _, rfl, u, _, rfl, hu, v, rfl, hv⟩
        exact .branch hk hl hu hp hv
    · simp only [yields_bind, yields_eat, yields_map] at h
      obtain ⟨_, s₁, _, _, hv, z, ⟨rfl, hz, rfl⟩, rfl⟩ := h
      obtain ⟨c, rfl, hc⟩ := took_expression check last _ hv
      refine (hc.append (.one z)).imp (by simp) ?_
      rintro _ ⟨u, _, rfl, hu, rfl⟩
      exact .bare hu hz
termination_by 2 * pulls.length

theorem took_block (pulls : List Pull) : ∀ {nodes s s' rest},
    (block check last pulls).Yields s nodes s' rest →
      Took check pulls rest s s' (MakesBlock · nodes) (Program.events nodes) := by
  unfold block
  intro nodes s s' rest h
  simp only [yields_bind, yields_finish, yields_eat, yields_map] at h
  obtain ⟨l, _, r, _, ⟨rfl, hl, rfl⟩, _, s₁, _, _, hb, z, ⟨rfl, hz, rfl⟩, rfl⟩ := h
  refine (((took_statements .rbrace r hb).append (.one z)).token l).imp (by simp) ?_
  rintro _ ⟨_, rfl, u, _, rfl, hu, rfl⟩
  exact .braces hl hu hz
termination_by 2 * pulls.length

theorem took_statements (close : TokenKind) (pulls : List Pull) : ∀ {nodes s s' rest},
    (statements check last close pulls).Yields s nodes s' rest →
      Took check pulls rest s s' (MakesProgram · nodes) (Program.events nodes) := by
  unfold statements
  match pulls with
  | [] =>
    intro nodes s s' rest h
    obtain ⟨rfl, rfl, rfl⟩ := yields_stay.mp h
    exact .nothing .nil
  | .error e :: _ => simp
  | .ok t :: pulls =>
    intro nodes s s' rest h
    dsimp only at h
    split at h
    · obtain ⟨rfl, rfl, rfl⟩ := yields_stay.mp h
      exact .nothing .nil
    · simp only [yields_loose, yields_andThen, yields_map] at h
      obtain ⟨node, s₁, r, _, hn, nodes, hs, rfl⟩ := h
      refine ((took_statement _ hn).append (took_statements close r hs)).imp rfl ?_
      rintro _ ⟨u, v, rfl, hu, hv⟩
      exact .cons hu hv
termination_by 2 * pulls.length + 1
decreasing_by all_goals (simp only [List.length_cons] at *; omega)

end

/-- **What is read as a program is made of the words taken.** -/
theorem took_program (pulls : List Pull) {nodes : Program} {s s' : σ} {rest : List Pull}
    (h : (program check last pulls).Yields s nodes s' rest) :
    Took check pulls rest s s' (MakesProgram · nodes) (Program.events nodes) :=
  took_statements check last .eof pulls h

end Parse

theorem exists_yields_of_parse {source : TokenSource} {scope : Scope} {nodes : Program}
    (h : (parse source scope).1 = .ok nodes) :
    ∃ rest, (Parse.program Scope.apply source.last source.pulls).Yields scope nodes
      (parse source scope).2 rest := by
  unfold parse at h ⊢
  dsimp only at h ⊢
  rcases hr : Parse.program _ _ _ scope with ⟨s', e | ⟨a, rest⟩⟩
  · rw [hr] at h
    cases h
  · rw [hr] at h
    cases h
    exact ⟨rest.1, rest.2, hr⟩

end IntLang
