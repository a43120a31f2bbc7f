import IntLang.Proofs.Reading.Fails
import IntLang.Proofs.Syntax.Complete

/-!
# Programs in front of a program

Statements in front of others are read first, and the rest is read as it would be alone. All that could
come between is an `else`, which a branch at the end of the one would take; no program starts with it.

* `MakesProgram.append`: the words of both programs make one;
* `Parse.noElse_of_refused`: where a name is refused, reading did not start with `else`;
* **`Parse.fails_behind`**: what fails behind a program fails in the same way alone.
-/

namespace IntLang

theorem Program.events_append (nodes nodes' : List Node) :
    Program.events (nodes ++ nodes') = Program.events nodes ++ Program.events nodes' := by
  induction nodes with
  | nil => rfl
  | cons node nodes ih => rw [List.cons_append, events, events, ih, List.append_assoc]

theorem MakesProgram.append {u v : List Word} {nodes nodes' : List Node} (h : MakesProgram u nodes)
    (h' : MakesProgram v nodes') : MakesProgram (u ++ v) (nodes ++ nodes') := by
  induction nodes generalizing u with
  | nil =>
    cases h
    exact h'
  | cons node nodes ih =>
    cases h with
    | cons hn hs =>
      rw [List.append_assoc]
      exact .cons hn (ih hs)

namespace Parse

open Reading

variable {σ : Type} {check : NameCheck σ} {last : Token} {s s' s₁ : σ} {e : CompileError}
  {rest : List Pull}

theorem readsBlock_of_makesBlock {u : List Word} {nodes : List Node} (h : MakesBlock u nodes) :
    ReadsBlock check last u nodes := by
  cases h with
  | braces hl h hr => exact readsBlock_braces hl (readsProgram_of_makesProgram h) hr

theorem readsStatement_of_makesStatement {u : List Word} {node : Node} (h : MakesStatement u node) :
    ReadsStatement check last u node := by
  cases h with
  | declare hw hn hs => exact readsStatement_declare hw hn hs
  | initial hw hn he h hs => exact readsStatement_initial hw hn he h hs
  | print hw hl h hr hs => exact readsStatement_print hw hl h hr hs
  | printText hw hl ht hr hs => exact readsStatement_printText hw hl ht hr hs
  | branch hw hl h hr hy => exact readsStatement_branch hw hl h hr (readsBlock_of_makesBlock hy)
  | branchElse hw hl h hr hy he hn =>
    exact readsStatement_branchElse hw hl h hr (readsBlock_of_makesBlock hy) he
      (readsBlock_of_makesBlock hn)
  | bare h hs => exact readsStatement_bare h hs

/-- A statement cannot start with `else`. -/
theorem statement_else {t : Token} (ht : t.kind = .elseWord) (pulls : List Pull) :
    (statement check last (.ok t :: pulls)).Fails s (.unexpected t none) s := by
  rw [statement]
  simp only [ht, fails_bind, expression, fails_map]
  left
  rw [chain]
  simp only [ht]
  exact fails_fail.mpr ⟨rfl, rfl⟩

/-- Where a name is refused, neither an error nor `else` stands in front. -/
theorem noElse_of_refused (hrest : ∀ e, .error e ∈ rest → ∃ t d, e = .unexpected t d)
    (he : ∀ t d, e ≠ .unexpected t d) (h : (program check last rest).Fails s e s') :
    NoElse last rest := by
  unfold program statements at h
  rcases rest with _ | ⟨e₁ | t, rest⟩
  · exact absurd h (fails_stay _ _)
  · obtain ⟨rfl, -⟩ := fails_fail.mp h
    obtain ⟨t, d, he₁⟩ := hrest e₁ List.mem_cons_self
    exact absurd he₁ (he t d)
  · refine ⟨t, rfl, fun hk => ?_⟩
    dsimp only at h
    rw [if_neg (by simp [hk]), fails_loose, fails_andThen] at h
    have hs : (statement check last (.ok t :: rest)).Fails s _ s := statement_else hk rest
    obtain h | ⟨_, _, _, _, h, -⟩ := h
    · have := hs.symm.trans h
      cases this
      exact he t none rfl
    · have := hs.symm.trans h.2
      cases this

/-- **What fails behind a program fails alone**, from the names that the program leaves. -/
theorem fails_behind {ts : List Token} {nodes : List Node}
    (hm : MakesProgram (ts.map Token.word) nodes)
    (hs : check.replay s (Program.events nodes) = (none, s₁)) (hr : NoElse last rest)
    (h : (program check last rest).Fails s₁ e s') :
    (program check last (ts.map .ok ++ rest)).Fails s e s' := by
  induction nodes generalizing ts s with
  | nil =>
    generalize hts : ts.map Token.word = u at hm
    cases hm
    cases hs
    rw [List.map_eq_nil_iff.mp hts]
    exact h
  | cons node nodes ih =>
    generalize hts : ts.map Token.word = u at hm
    cases hm with
    | cons hn hm =>
      obtain ⟨ts₁, ts₂, rfl, rfl, rfl⟩ := List.map_eq_append_iff.mp hts
      obtain ⟨s₂, hs, hs₂⟩ := NameCheck.replay_append_none.mp hs
      have hy := readsStatement_of_makesStatement hn rfl (noElse_of_makesProgram hm hr) hs
      have hf := ih hm hs₂
      obtain ⟨w, v, hw, hk⟩ := hn.head
      obtain ⟨t, ts₁, rfl, rfl, _⟩ := List.map_eq_cons_iff.mp hw
      rw [List.map_append, List.append_assoc, program]
      rw [List.map_cons, List.cons_append] at hy ⊢
      rw [statements, if_neg (by rintro (hk' | hk') <;> simp [hk'] at hk), fails_loose, fails_andThen]
      exact .inr ⟨_, _, _, hy.1, hy, fails_map.mpr hf⟩

end Parse

end IntLang
