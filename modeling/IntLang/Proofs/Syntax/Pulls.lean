import IntLang.Proofs.Scanning.Tiles
import IntLang.Proofs.Syntax.ViablePrefix
import Mathlib.Data.Stream.Init

/-!
# How far parsing pulls

Parsing pulls tokens one after another and stops by itself: what it gives is settled by the pulls it has
made, and each of them was needed. It never pulls behind the end of input, and a program is only given at
the end of input.

* `Settled`: the first pulls of a source settle what parsing gives;
* `Gives`: what parsing gives on a source that never has to end;
* `Settled.not_pulled`, `settled_of_not_pulled`: one more pull is made just as long as nothing is settled;
* **`exists_settled_pulled`**: how many pulls are made.
-/

namespace IntLang

/-! ## Pulls of sources -/

namespace TokenSource

variable {s : TokenSource} {us : List Token} {k n : Nat}

theorem take_pull (s : TokenSource) (h : k ≤ n) : (s.pull n).take k = s.pull k := by
  induction k generalizing s n with
  | zero => rfl
  | succ k ih =>
    obtain ⟨n, rfl⟩ := Nat.exists_eq_add_of_le' h
    rw [← Nat.add_assoc, pull, List.take_succ_cons, ih s.next.2 (by omega), pull]

/-- A source that delivers tokens in front of the end of input starts with them. -/
theorem exists_rest (hs : s.last.kind = .eof) (hus : ∀ u ∈ us, u.kind ≠ .eof)
    (h : s.pull us.length = us.map .ok) : ∃ rest, s = ⟨us.map .ok ++ rest, s.last⟩ := by
  induction us generalizing s with
  | nil => exact ⟨s.pulls, rfl⟩
  | cons u us ih =>
    obtain ⟨hu, hus⟩ := List.forall_mem_cons.mp hus
    obtain ⟨first, more⟩ := List.cons.inj h
    obtain ⟨_ | ⟨pull, pulls⟩, last⟩ := s
    · -- the token would be the end token
      cases first
      exact absurd hs hu
    · obtain ⟨rest, hr⟩ := ih (s := ⟨pulls, last⟩) hs hus more
      cases first
      exact ⟨rest, by rw [mk.inj hr |>.1]; rfl⟩

theorem length_pull (s : TokenSource) (n : Nat) : (s.pull n).length = n := by
  induction n generalizing s with
  | zero => rfl
  | succ n ih => rw [pull, List.length_cons, ih]

theorem pull_of_le {pulls : List Pull} (h : k ≤ pulls.length) (last : Token) :
    (mk pulls last).pull k = pulls.take k := by
  rw [pull_eq, Nat.sub_eq_zero_of_le h, List.replicate_zero, List.append_nil]

/-- An error in place of a pull changes none in front. -/
theorem pull_failAt (s : TokenSource) (e : CompileError) (h : k ≤ n) :
    (s.failAt n e).pull k = s.pull k := by
  have hl := s.length_pull n
  rw [failAt, pull_of_le (by rw [List.length_append]; omega),
    List.take_append_of_le_length (by omega), s.take_pull h]

/-- Tokens in front of the end of input are pulled as they stand. -/
theorem pull_ofTokens {ts : List Token} (h : k ≤ ts.length) :
    (ofTokens ts).pull k = (ts.take k).map .ok := by
  rw [ofTokens, pull_of_le (by rwa [List.length_map]), List.map_take]

end TokenSource

/-! ## Settled outcomes -/

/-- The first `k` pulls settle what parsing gives: any source that makes them, too, gives the same. -/
def Settled (s : TokenSource) (scope : Scope) (k : Nat) : Prop :=
  ∀ s' : TokenSource, s'.last.kind = .eof → s'.pull k = s.pull k → parse s' scope = parse s scope

/-- A source that never has to end gives what all its long enough fronts give, however they end. -/
def Gives (source : Stream' Pull) (scope : Scope) (result : Except CompileError Program × Scope) : Prop :=
  ∃ n, ∀ m ≥ n, ∀ last : Token, last.kind = .eof → parse ⟨source.take m, last⟩ scope = result

section

variable {s : TokenSource} {scope : Scope} {k n : Nat}

theorem Settled.gives (h : Settled s scope k) {source : Stream' Pull} (hk : source.take k = s.pull k) :
    Gives source scope (parse s scope) := by
  refine ⟨k, fun m hm last hl => h _ hl ?_⟩
  rw [TokenSource.pull_of_le (by rwa [Stream'.length_take]), ← hk, Stream'.take_take, min_eq_right hm]

/-- Where parsing pulls, nothing is settled. -/
theorem Settled.not_pulled (h : Settled s scope k) (hs : s.last.kind = .eof) (hkn : k ≤ n) :
    ¬ Pulled s scope n := by
  intro hp
  have same (e : CompileError) : (parse s scope).1 = .error e := by
    rw [← h (s.failAt n e) hs (s.pull_failAt e hkn), hp e]
  cases (same (.duplicate "")).symm.trans (same (.undeclared ""))

/-- Where it does not, all is settled. -/
theorem settled_of_not_pulled {us : List Token} (hs : s.last.kind = .eof)
    (hus : ∀ u ∈ us, u.kind ≠ .eof) (hp : s.pull us.length = us.map .ok)
    (h : ¬ Pulled s scope us.length) : Settled s scope us.length := by
  obtain ⟨e, he⟩ := not_forall.mp h
  rw [TokenSource.failAt, hp] at he
  obtain he' | ⟨e', scope', hall⟩ := parse_faulty hs hus e [] scope
  · exact absurd he' he
  · have same (s' : TokenSource) (hl : s'.last.kind = .eof) (hp' : s'.pull us.length = us.map .ok) :
        parse s' scope = (.error e', scope') := by
      obtain ⟨rest, hr⟩ := TokenSource.exists_rest hl hus hp'
      rw [hr]
      exact hall rest _ hl
    intro s' hl hp'
    rw [same s' hl (hp'.trans hp), same s hs hp]

end

/-! ## Given tokens -/

/-- The number of tokens up to the first that ends the input, or one more than all if there is none. -/
def pullsToEnd (ts : List Token) : Nat := (ts.takeWhile fun t => t.kind ≠ .eof).length + 1

section

variable {ts : List Token} {scope : Scope} {n : Nat}

theorem exists_settled (ts : List Token) (scope : Scope) :
    ∃ k ≤ pullsToEnd ts, Settled (.ofTokens ts) scope k := by
  have hl := TokenSource.kind_endOf ts
  obtain ⟨us, vs, a, scope', rfl, hus, -, h⟩ := parse_settled hl ts scope
  refine ⟨us.length + 1, ?_, fun s hs hp => ?_⟩
  · rw [pullsToEnd, List.takeWhile_append_of_pos (by simpa using hus), List.length_append]
    omega
  · -- the tokens in front are there, and the next one is the same
    rw [TokenSource.pull_ofTokens_append] at hp
    have hfront : s.pull us.length = us.map .ok := by
      rw [← s.take_pull (Nat.le_succ us.length), hp]
      simp
    obtain ⟨rest, hr⟩ := TokenSource.exists_rest hs hus hfront
    have hnext : TokenSource.peek s.last rest =
        TokenSource.peek (TokenSource.endOf (us ++ vs)) (vs.map .ok) := by
      have hpull := TokenSource.pull_append (us.map .ok) rest s.last 1
      rw [List.length_map, ← hr, hp] at hpull
      exact (List.cons.inj (List.append_cancel_left hpull)).1.symm
    have settled := h s.last rest ⟨hs, fun t ht => hnext.trans ht⟩
    have given := h _ _ ⟨hl, fun _ => id⟩
    rw [← hr] at settled
    rw [← List.map_append] at given
    exact settled.trans given.symm

/-- The pulls in front of the end are tokens that do not end the input. -/
theorem exists_front (h : n < pullsToEnd ts) : ∃ us : List Token, us.length = n ∧
    (∀ u ∈ us, u.kind ≠ .eof) ∧ (TokenSource.ofTokens ts).pull n = us.map .ok := by
  have hpre := List.takeWhile_prefix (l := ts) fun t => decide (t.kind ≠ .eof)
  have hn : n ≤ (ts.takeWhile fun t => t.kind ≠ .eof).length := Nat.le_of_lt_succ h
  have hle := hn.trans hpre.length_le
  refine ⟨ts.take n, List.length_take_of_le hle, fun u hu => ?_, TokenSource.pull_ofTokens hle⟩
  have htake : ts.take n = (ts.takeWhile fun t => t.kind ≠ .eof).take n := by
    rw [List.prefix_iff_eq_take.mp hpre, List.take_take, min_eq_left hn]
  rw [htake] at hu
  simpa using List.mem_takeWhile_imp (List.mem_of_mem_take hu)

/-- A program is not settled in front of the end. -/
theorem Settled.eq_pullsToEnd {program : Program} (h : Settled (.ofTokens ts) scope n)
    (hn : n ≤ pullsToEnd ts) (hp : (parse (.ofTokens ts) scope).1 = .ok program) :
    n = pullsToEnd ts := by
  refine hn.antisymm (Nat.le_of_not_lt fun hlt => ?_)
  obtain ⟨us, rfl, hus, hpull⟩ := exists_front hlt
  -- a lexical error in place of the next token would be passed over
  have same := h _ (TokenSource.kind_endOf ts)
    (TokenSource.pull_failAt (.ofTokens ts) (.duplicate "") (Nat.le_refl us.length))
  rw [TokenSource.failAt, hpull] at same
  exact parse_ne_ok hus scope program ((congrArg Prod.fst same).trans hp)

/-- **Parsing pulls as far as it has to.** It makes some pulls, which are the first ones, each once, and the
last of them is at most that of the first token that ends the input. They settle the outcome and the scope,
for any source that makes them, too. If there is a program, all tokens up to the end were pulled. -/
theorem exists_settled_pulled (ts : List Token) (scope : Scope) :
    ∃ k ≤ pullsToEnd ts, (∀ n, Pulled (.ofTokens ts) scope n ↔ n < k) ∧
      Settled (.ofTokens ts) scope k ∧
      (∀ source : Stream' Pull, source.take k = (TokenSource.ofTokens ts).pull k →
        Gives source scope (parse (.ofTokens ts) scope)) ∧
      ∀ program, (parse (.ofTokens ts) scope).1 = .ok program → k = pullsToEnd ts := by
  classical
  have hl := TokenSource.kind_endOf ts
  obtain ⟨bound, hb, hs⟩ := exists_settled ts scope
  -- the fewest pulls that settle the outcome
  have hex : ∃ k, Settled (.ofTokens ts) scope k := ⟨bound, hs⟩
  have settled := Nat.find_spec hex
  have hk : Nat.find hex ≤ pullsToEnd ts := (Nat.find_min' hex hs).trans hb
  refine ⟨Nat.find hex, hk, fun n => ⟨fun hp => ?_, fun hn => ?_⟩, settled, ?_, ?_⟩
  · exact Nat.lt_of_not_le fun hn => settled.not_pulled hl hn hp
  · by_contra hp
    obtain ⟨us, rfl, hus, hpull⟩ := exists_front (hn.trans_le hk)
    exact Nat.find_min hex hn (settled_of_not_pulled hl hus hpull hp)
  · exact fun source => settled.gives
  · intro program hprogram
    exact settled.eq_pullsToEnd hk hprogram

end

end IntLang
