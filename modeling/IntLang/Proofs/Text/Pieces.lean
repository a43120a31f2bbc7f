import IntLang.Text.Pieces

/-!
# Runs without their separator

* `runs_of_notMem`, `runs_append`: the runs of a list, from the front;
* `subset_of_mem_runs`: nothing new is in them;
* `runs_intercalate`: runs that are put together are found again, if none holds the separator.
-/

namespace IntLang.Text

section Runs

variable {α : Type} [DecidableEq α] {sep : α}

theorem runs_of_notMem {cs : List α} (h : sep ∉ cs) : runs sep cs = [cs] := by
  induction cs with
  | nil => rfl
  | cons c cs ih =>
    rw [List.mem_cons, not_or] at h
    rw [runs, if_neg (Ne.symm h.1), ih h.2]

theorem notMem_of_mem_runs {cs run : List α} (h : run ∈ runs sep cs) : sep ∉ run := by
  induction cs generalizing run with
  | nil =>
    rw [runs, List.mem_singleton] at h
    exact h ▸ List.not_mem_nil
  | cons c cs ih =>
    rw [runs] at h
    split at h
    · obtain rfl | h := List.mem_cons.mp h
      · exact List.not_mem_nil
      · exact ih h
    · next hc =>
      split at h
      · next hr => exact absurd hr (runs_ne_nil sep cs)
      · next first more hr =>
        rw [hr] at ih
        obtain rfl | h := List.mem_cons.mp h
        · exact List.not_mem_cons_of_ne_of_not_mem (Ne.symm hc) (ih List.mem_cons_self)
        · exact ih (List.mem_cons_of_mem _ h)

theorem subset_of_mem_runs {cs run : List α} (h : run ∈ runs sep cs) : run ⊆ cs := by
  induction cs generalizing run with
  | nil =>
    rw [runs, List.mem_singleton] at h
    exact h ▸ List.Subset.refl _
  | cons c cs ih =>
    rw [runs] at h
    split at h
    · obtain rfl | h := List.mem_cons.mp h
      · exact List.nil_subset _
      · exact List.Subset.trans (ih h) (List.subset_cons_self c cs)
    · split at h
      · next hr => exact absurd hr (runs_ne_nil sep cs)
      · next first more hr =>
        rw [hr] at ih
        obtain rfl | h := List.mem_cons.mp h
        · exact List.cons_subset_cons c (ih List.mem_cons_self)
        · exact List.Subset.trans (ih (List.mem_cons_of_mem _ h)) (List.subset_cons_self c cs)

theorem runs_append {run : List α} (h : sep ∉ run) (cs : List α) :
    runs sep (run ++ sep :: cs) = run :: runs sep cs := by
  induction run with
  | nil => simp [runs]
  | cons c run ih =>
    simp only [List.mem_cons, not_or] at h
    rw [List.cons_append, runs, if_neg (Ne.symm h.1), ih h.2]

/-- **Runs that are put together are found again.** -/
theorem runs_intercalate {runs : List (List α)} (hn : runs ≠ []) (h : ∀ run ∈ runs, sep ∉ run) :
    Text.runs sep ([sep].intercalate runs) = runs := by
  induction runs with
  | nil => exact absurd rfl hn
  | cons run more ih =>
    obtain ⟨hr, hm⟩ := List.forall_mem_cons.mp h
    cases more with
    | nil => simpa using runs_of_notMem hr
    | cons next more =>
      rw [List.intercalate_cons_cons, List.append_assoc, List.singleton_append, runs_append hr,
        ih (List.cons_ne_nil _ _) hm]

end Runs

end IntLang.Text
