import IntLang.Files.FileTree

/-!
# What stands where

A path leads to nothing, to a directory or to a file. What stands at the places of a tree is all that
file operations can tell of it.

* `FileTree.standing`: what a path leads to;
* `standing_writeAt`, `standing_makeDirs`: what stands behind a change, at every place;
* `exists_iff`, `read_eq_ok`, `standing_write`: the operations on paths, in these terms;
* `FileTree.GrownAt`: a place where at most a directory is new.
-/

namespace IntLang

theorem exists_ok_of_bind {ε α β : Type} {x : Except ε α} {f : α → Except ε β} {b : β}
    (h : (x >>= f) = .ok b) : ∃ a, x = .ok a ∧ f a = .ok b := by
  cases x with
  | error e => cases h
  | ok a => exact ⟨a, rfl, h⟩

/-- What a path leads to. -/
inductive Standing where
  | nothing
  | directory
  | text (text : String)
  deriving DecidableEq, Repr

namespace FileTree

def standing (t : FileTree) (names : List UnitText) : Standing :=
  match t.find names with
  | .ok (.file text) => .text text
  | .ok (.dir _) => .directory
  | .error _ => .nothing

variable {t t' u : FileTree} {entries : Entries} {name other : UnitText}
  {names place rest : List UnitText} {text : String}

theorem standing_eq_text : t.standing names = .text text ↔ t.find names = .ok (.file text) := by
  unfold standing
  rcases t.find names with e | (_ | _) <;> simp

theorem find_of_directory (h : t.standing names = .directory) :
    ∃ entries, t.find names = .ok (dir entries) := by
  unfold standing at h
  rcases hf : t.find names with e | text | entries
  · rw [hf] at h
    cases h
  · rw [hf] at h
    cases h
  · exact ⟨entries, rfl⟩

/-! ## Entries -/

@[simp] theorem standing_dir_nil : (dir entries).standing [] = .directory := rfl

/-- Below a directory stands what stands in the entry. -/
theorem standing_dir_cons (entries : Entries) (name : UnitText) (rest : List UnitText) :
    (dir entries).standing (name :: rest) =
      match child? name entries with
      | some t => t.standing rest
      | none => .nothing := by
  unfold standing
  rw [find]
  cases child? name entries <;> rfl

theorem standing_of_child? (h : child? name entries = some t) (rest : List UnitText) :
    (dir entries).standing (name :: rest) = t.standing rest := by
  rw [standing_dir_cons, h]

theorem standing_of_no_child? (h : child? name entries = none) (rest : List UnitText) :
    (dir entries).standing (name :: rest) = .nothing := by
  rw [standing_dir_cons, h]

theorem child?_ne_none (h : (name, t) ∈ entries) : child? name entries ≠ none := by
  induction entries with
  | nil => cases h
  | cons e entries ih =>
    rw [child?]
    split
    · exact Option.some_ne_none _
    · next hn =>
      obtain rfl | h := List.mem_cons.mp h
      · exact absurd rfl hn
      · exact ih h

theorem mem_of_child? (h : child? name entries = some t) : (name, t) ∈ entries := by
  induction entries with
  | nil => cases h
  | cons e entries ih =>
    rw [child?] at h
    split at h
    · next he =>
      cases h
      exact he ▸ List.mem_cons_self
    · exact List.mem_cons_of_mem e (ih h)

/-- A directory is listed as one. -/
theorem mem_kinds (h : (dir entries).standing [name] = .directory) : (name, true) ∈ kinds entries := by
  rw [standing_dir_cons] at h
  cases hc : child? name entries with
  | none =>
    rw [hc] at h
    cases h
  | some t =>
    rw [hc] at h
    cases t with
    | file => cases h
    | dir below => exact List.mem_map.mpr ⟨_, mem_of_child? hc, rfl⟩

/-- **An entry that is put in a directory is what stands under its name**, and it concerns no other. -/
theorem standing_put (name other : UnitText) (u : FileTree) (entries : Entries)
    (rest : List UnitText) :
    (dir (put name u entries)).standing (other :: rest) =
      if other = name then u.standing rest else (dir entries).standing (other :: rest) := by
  split
  · next h => exact h ▸ standing_of_child? (child?_put_self _ _ _) rest
  · next h => rw [standing_dir_cons, standing_dir_cons, child?_put_of_ne h]

/-- Something stands below directories only. -/
theorem standing_nil_of_ne (h : t.standing (name :: rest) ≠ .nothing) :
    t.standing [] = .directory := by
  cases t with
  | file text => exact absurd rfl h
  | dir entries => rfl

/-! ## Changes -/

/-- **A file that is written stands at its place, and everything else as before.** -/
theorem standing_writeAt (h : writeAt text t place = .ok t') (names : List UnitText) :
    t'.standing names = if names = place then .text text else t.standing names := by
  induction place generalizing t t' names with
  | nil =>
    cases t with
    | dir => cases h
    | file =>
      cases h
      cases names <;> rfl
  | cons name place ih =>
    cases t with
    | file => cases h
    | dir entries =>
      obtain ⟨u, rfl, hu⟩ : ∃ u, t' = dir (put name u entries) ∧ ∀ rest, u.standing rest =
          if rest = place then .text text else (dir entries).standing (name :: rest) := by
        rw [writeAt] at h
        split at h
        · next t hc =>
          obtain ⟨u, hu, h⟩ := exists_ok_of_bind h
          cases h
          refine ⟨u, rfl, fun rest => ?_⟩
          rw [ih hu, standing_of_child? hc]
        · next hc =>
          split at h
          · next hp =>
            cases h
            refine ⟨_, rfl, fun rest => ?_⟩
            rw [hp, standing_of_no_child? hc]
            cases rest <;> rfl
          · cases h
      cases names with
      | nil => rfl
      | cons other rest =>
        rw [standing_put, hu]
        by_cases ho : other = name <;> simp [ho]

/-- Beyond its own place, a missing entry is as good as an empty directory. -/
theorem standing_getD_empty (entries : Entries) (name : UnitText) (hr : rest ≠ []) :
    ((child? name entries).getD empty).standing rest = (dir entries).standing (name :: rest) := by
  rw [standing_dir_cons]
  cases child? name entries with
  | some t => rfl
  | none =>
    obtain ⟨other, rest, rfl⟩ := List.exists_cons_of_ne_nil hr
    rfl

/-- **New directories stand on the way to their place, and everything else as before.** -/
theorem standing_makeDirs (h : t.makeDirs place = .ok t') (names : List UnitText) :
    t'.standing names = if names <+: place then .directory else t.standing names := by
  induction place generalizing t t' names with
  | nil =>
    cases t with
    | file => cases h
    | dir =>
      cases h
      cases names <;> simp
  | cons name place ih =>
    cases t with
    | file => cases h
    | dir entries =>
      rw [makeDirs] at h
      obtain ⟨u, hu, h⟩ := exists_ok_of_bind h
      cases h
      cases names with
      | nil => simp
      | cons other rest =>
        rw [standing_put, ih hu]
        by_cases ho : other = name
        · subst ho
          simp only [if_true, List.cons_prefix_cons, true_and]
          split
          · rfl
          · next hp => exact standing_getD_empty entries other fun hr => hp (hr ▸ List.nil_prefix)
        · simp [ho]

/-- Directories are made where there are none, or stay. -/
theorem standing_of_makeDirs (h : t.makeDirs place = .ok t') (hn : names <+: place) :
    t.standing names = .directory ∨ t.standing names = .nothing := by
  induction place generalizing t t' names with
  | nil =>
    cases t with
    | file => cases h
    | dir =>
      obtain rfl := List.prefix_nil.mp hn
      exact .inl rfl
  | cons name place ih =>
    cases t with
    | file => cases h
    | dir entries =>
      cases names with
      | nil => exact .inl rfl
      | cons other rest =>
        obtain ⟨rfl, hr⟩ := List.cons_prefix_cons.mp hn
        rw [makeDirs] at h
        cases hc : child? other entries with
        | none => exact .inr (standing_of_no_child? hc rest)
        | some t =>
          rw [hc, Option.getD_some] at h
          obtain ⟨u, hu, -⟩ := exists_ok_of_bind h
          rw [standing_of_child? hc]
          exact ih hu hr

/-! ## Paths -/

variable {p : Path}

theorem exists_iff (hs : p.slash = false) : t.exists p = true ↔ t.standing p.segments ≠ .nothing := by
  unfold FileTree.exists named standing
  rcases t.find p.segments with e | (_ | _) <;> simp [hs, Except.toOption]

/-- A directory exists, with or without a closing slash. -/
theorem exists_of_directory (h : t.standing p.segments = .directory) : t.exists p = true := by
  unfold standing at h
  unfold FileTree.exists named
  rcases hf : t.find p.segments with e | (_ | _) <;> simp_all [Except.toOption]

/-- What exists is a directory or a file. -/
theorem find_of_exists (h : t.exists p = true) :
    (∃ entries, t.find p.segments = .ok (dir entries)) ∨ ∃ text, t.standing p.segments = .text text := by
  unfold FileTree.exists named at h
  rcases hf : t.find p.segments with e | text | entries
  · rw [hf] at h
    cases h
  · exact .inr ⟨text, standing_eq_text.mpr hf⟩
  · exact .inl ⟨entries, rfl⟩

/-- What is read is a file, named without a closing slash. -/
theorem read_eq_ok : t.read p = .ok text ↔ p.slash = false ∧ t.standing p.segments = .text text := by
  unfold read named standing
  rcases t.find p.segments with e | (_ | _)
  · simp
  · cases p.slash <;> simp
  · simp

/-- **What is written with a path stands there, and everything else as before.** -/
theorem standing_write (h : t.write p text = .ok t') (names : List UnitText) :
    t'.standing names = if names = p.segments then .text text else t.standing names := by
  obtain ⟨u, hu, h⟩ := exists_ok_of_bind h
  split at h
  · cases h
  · cases h
    exact standing_writeAt hu names

/-! ## Growth -/

/-- At one place: directories on a way may be new, and everything else stands as before. -/
def GrownAt (way : List UnitText) (t t' : FileTree) (names : List UnitText) : Prop :=
  t'.standing names = t.standing names ∨
    names <+: way ∧ t.standing names = .nothing ∧ t'.standing names = .directory

theorem GrownAt.refl (way : List UnitText) (t : FileTree) (names : List UnitText) :
    t.GrownAt way t names := .inl rfl

theorem GrownAt.trans {way : List UnitText} (h : t.GrownAt way t' names) (h' : t'.GrownAt way u names) :
    t.GrownAt way u names := by
  obtain same | ⟨hw, nothing, new⟩ := h
  · obtain same' | ⟨hw, nothing, new⟩ := h'
    · exact .inl (same'.trans same)
    · exact .inr ⟨hw, same ▸ nothing, new⟩
  · obtain same' | ⟨-, missing, -⟩ := h'
    · exact .inr ⟨hw, nothing, same'.trans new⟩
    · exact absurd (new.symm.trans missing) Standing.noConfusion

/-- Off the way, nothing grows. -/
theorem GrownAt.standing_eq {way : List UnitText} (h : t.GrownAt way t' names)
    (hn : ¬ names <+: way) : t'.standing names = t.standing names :=
  h.resolve_right fun h => hn h.1

/-- What is written later concerns one place only. -/
theorem GrownAt.write {way : List UnitText} (h : t.GrownAt way t' names)
    (hw : t'.write p text = .ok u) (hn : names ≠ p.segments) : t.GrownAt way u names := by
  unfold GrownAt
  rw [standing_write hw, if_neg hn]
  exact h

theorem grownAt_makeDirs (h : t.makeDirs place = .ok t') (names : List UnitText) :
    t.GrownAt place t' names := by
  by_cases hn : names <+: place
  · have new : t'.standing names = .directory := by rw [standing_makeDirs h, if_pos hn]
    obtain hd | hd := standing_of_makeDirs h hn
    · exact .inl (new.trans hd.symm)
    · exact .inr ⟨hn, hd, new⟩
  · exact .inl (by rw [standing_makeDirs h, if_neg hn])

end FileTree

end IntLang
