import IntLang.Files.Path
import IntLang.Proofs.Text.Pieces

/-!
# Names on a path

A text without a slash goes one step on from a path; where it is a name, the step goes down.

* `Path.IsName`: what can name an entry of a directory;
* `Path.Normal`: every step of a path goes down;
* `Path.normal_resolve`, `Path.normal_ofText`: paths made of texts are normal;
* `Path.join_of_isName`: a name is put behind the others.
-/

namespace IntLang

namespace Path

/-! ## Names -/

/-- What can name an entry of a directory. -/
structure IsName (name : UnitText) : Prop where
  ne_nil : name ≠ []
  ne_dot : name ≠ Text.units "."
  ne_dots : name ≠ Text.units ".."
  noSlash : unit '/' ∉ name

instance (name : UnitText) : Decidable (IsName name) :=
  decidable_of_iff (name ≠ [] ∧ name ≠ Text.units "." ∧ name ≠ Text.units ".." ∧ unit '/' ∉ name)
    ⟨fun ⟨hn, hd, hds, hs⟩ => ⟨hn, hd, hds, hs⟩, fun h => ⟨h.ne_nil, h.ne_dot, h.ne_dots, h.noSlash⟩⟩

variable {above : List UnitText} {piece text : UnitText} {p : Path}

/-- A text with a unit that is not a dot is a name, if it has no slash. -/
theorem isName_of_mem {u : CodeUnit} (hs : unit '/' ∉ piece) (hu : u ∈ piece) (hd : u ≠ unit '.') :
    IsName piece := by
  refine ⟨List.ne_nil_of_mem hu, ?_, ?_, hs⟩
  all_goals
    rintro rfl
    exact hd (by simpa [Text.units, Text.charUnits] using hu)

theorem step_of_isName (h : IsName piece) (above : List UnitText) :
    step above piece = above ++ [piece] := by
  rw [step, if_neg (not_or.mpr ⟨h.ne_nil, h.ne_dot⟩), if_neg h.ne_dots]

theorem walk_of_noSlash (h : unit '/' ∉ text) (above : List UnitText) :
    walk above text = step above text := by
  rw [walk, Text.runs_of_notMem h, List.foldl_cons, List.foldl_nil]

theorem endsInSlash_of_noSlash (h : unit '/' ∉ text) : endsInSlash text = false := by
  rw [endsInSlash, beq_eq_false_iff_ne]
  exact fun hl => h (List.mem_of_getLast? hl)

/-- **Joining a text without a slash goes one step on.** -/
theorem join_of_noSlash (hn : text ≠ []) (h : unit '/' ∉ text) (p : Path) :
    p.join text = ⟨step p.segments text, false⟩ := by
  rw [join, if_neg hn, walk_of_noSlash h, endsInSlash_of_noSlash h]

theorem join_of_isName (h : IsName piece) (p : Path) :
    p.join piece = ⟨p.segments ++ [piece], false⟩ := by
  rw [join_of_noSlash h.ne_nil h.noSlash, step_of_isName h]

theorem resolve_of_isName (h : IsName piece) (p : Path) :
    p.resolve piece = ⟨p.segments ++ [piece], false⟩ := by
  have relative : ¬ piece.head? = some (unit '/') := fun hs => h.noSlash (List.mem_of_head? hs)
  rw [resolve, if_neg relative, walk_of_noSlash h.noSlash, step_of_isName h]

/-! ## Normal paths -/

/-- All of a path are names. -/
def Normal (p : Path) : Prop := ∀ name ∈ p.segments, IsName name

section Pieces

variable {P : UnitText → Prop}

theorem forall_mem_step (h : ∀ name ∈ above, P name) (hs : unit '/' ∉ piece)
    (hp : IsName piece → P piece) : ∀ name ∈ step above piece, P name := by
  unfold step
  split
  · exact h
  split
  · exact fun name hm => h name (List.dropLast_subset _ hm)
  · next hd hdd =>
    obtain ⟨hn, hd⟩ := not_or.mp hd
    exact List.forall_mem_append.mpr ⟨h, List.forall_mem_singleton.mpr (hp ⟨hn, hd, hdd, hs⟩)⟩

/-- What holds of the names on a path and of the names in a text holds behind it. -/
theorem forall_mem_walk (h : ∀ name ∈ above, P name)
    (hp : ∀ piece ∈ Text.runs (unit '/') text, IsName piece → P piece) :
    ∀ name ∈ walk above text, P name := by
  unfold walk
  have hpieces : ∀ piece ∈ Text.runs (unit '/') text, unit '/' ∉ piece :=
    fun _ => Text.notMem_of_mem_runs
  generalize Text.runs (unit '/') text = pieces at hp hpieces
  induction pieces generalizing above with
  | nil => exact h
  | cons piece pieces ih =>
    obtain ⟨hs, hss⟩ := List.forall_mem_cons.mp hpieces
    obtain ⟨hp, hps⟩ := List.forall_mem_cons.mp hp
    exact ih (forall_mem_step h hs hp) hps hss

end Pieces

theorem isName_of_mem_walk (h : ∀ name ∈ above, IsName name) (text : UnitText) :
    ∀ name ∈ walk above text, IsName name := forall_mem_walk h fun _ _ hp => hp

theorem normal_join (h : p.Normal) (text : UnitText) : (p.join text).Normal := by
  unfold join
  split
  · exact h
  · exact isName_of_mem_walk h text

theorem normal_ofText (text : UnitText) : (ofText text).Normal :=
  normal_join (fun _ hm => absurd hm List.not_mem_nil) text

theorem normal_resolve (h : p.Normal) (text : UnitText) : (p.resolve text).Normal := by
  refine isName_of_mem_walk ?_ text
  split
  · exact fun _ hm => absurd hm List.not_mem_nil
  · exact h

/-! ## The last name -/

/-- The last name. The root has none. -/
def name (p : Path) : UnitText := p.segments.getLast?.getD []

theorem Normal.noSlash_name (h : p.Normal) : unit '/' ∉ p.name := by
  unfold name
  cases hl : p.segments.getLast? with
  | none => exact List.not_mem_nil
  | some last => exact (h last (List.mem_of_getLast? hl)).noSlash

/-- The last name is none at the root only. -/
theorem Normal.isName_name (h : p.Normal) (hr : p.segments ≠ []) : IsName p.name := by
  rw [name, List.getLast?_eq_some_getLast hr]
  exact h _ (List.getLast_mem hr)

theorem Normal.segments_eq_nil (h : p.Normal) (hn : p.name = []) : p.segments = [] :=
  Classical.byContradiction fun hr => (h.isName_name hr).ne_nil hn

variable {q : Path} {m n : UnitText}

theorem eq_join_iff (hn : IsName n) (hp : p.slash = false) (hq : q.slash = false) :
    p = q.join n ↔ q = p.parent ∧ p.name = n := by
  rw [join_of_isName hn]
  constructor
  · rintro rfl
    refine ⟨?_, ?_⟩
    · rw [parent, List.dropLast_concat, ← hq]
    · rw [name, List.getLast?_concat, Option.getD_some]
  · rintro ⟨rfl, hl⟩
    have hs : p.segments ≠ [] := by
      intro hs
      rw [name, hs] at hl
      exact hn.ne_nil hl.symm
    rw [name, List.getLast?_eq_some_getLast hs, Option.getD_some] at hl
    rw [parent, ← hl, List.dropLast_concat_getLast hs, ← hp]

theorem eq_join_of_segments (hn : IsName n) (hp : p.slash = false)
    (h : p.segments = (q.join n).segments) : p = q.join n := by
  rw [join_of_isName hn] at h ⊢
  obtain ⟨segments, slash⟩ := p
  cases hp
  exact congrArg (Path.mk · false) h

theorem join_inj (hm : IsName m) (hn : IsName n) : p.join m = p.join n ↔ m = n := by
  rw [join_of_isName hm, join_of_isName hn]
  simp

theorem join_ne_self (hn : IsName n) : p.join n ≠ p := by
  rw [join_of_isName hn]
  intro h
  simpa using congrArg (·.segments.length) h

theorem join_ne_parent (hn : IsName n) : p.join n ≠ p.parent := by
  rw [join_of_isName hn]
  intro h
  have h := congrArg (·.segments.length) h
  simp [parent] at h
  omega

/-- **A text without a slash leads nowhere else, up, or down.** -/
theorem join_cases (hp : p.slash = false) (h : unit '/' ∉ text) :
    (text = [] ∨ text = Text.units ".") ∧ p.join text = p ∨
      text = Text.units ".." ∧ p.join text = p.parent ∨ IsName text := by
  by_cases hn : text = []
  · exact .inl ⟨.inl hn, if_pos hn⟩
  by_cases hd : text = Text.units "."
  · rw [join_of_noSlash hn h, step, if_pos (.inr hd), ← hp]
    exact .inl ⟨.inr hd, rfl⟩
  by_cases hdd : text = Text.units ".."
  · rw [join_of_noSlash hn h, step, if_neg (not_or.mpr ⟨hn, hd⟩), if_pos hdd]
    exact .inr (.inl ⟨hdd, rfl⟩)
  · exact .inr (.inr ⟨hn, hd, hdd, h⟩)

/-! ## Stems -/

theorem stem_of_suffix {front ending : UnitText} (hn : front ≠ []) (h : p.name = front ++ ending) :
    p.stem ending = front := by
  have hs : ending.isSuffixOf p.name := List.isSuffixOf_iff_suffix.mpr ⟨front, h.symm⟩
  have hne : p.name ≠ ending := fun he => hn (List.append_left_eq_self.mp (h.symm.trans he))
  rw [stem, ← name, if_pos ⟨hne, hs⟩, h, List.length_append, Nat.add_sub_cancel, List.take_left]

theorem stem_of_not_suffix {ending : UnitText} (h : p.name = ending ∨ ¬ ending <:+ p.name) :
    p.stem ending = p.name :=
  if_neg fun ⟨hne, hs⟩ => h.elim hne fun h => h (List.isSuffixOf_iff_suffix.mp hs)

/-- **A stem is the whole name, or what stands in front of the ending.** -/
theorem stem_eq (p : Path) (ending : UnitText) :
    p.stem ending = p.name ∧ (p.name = ending ∨ ¬ ending <:+ p.name) ∨
      p.stem ending ≠ [] ∧ p.name = p.stem ending ++ ending := by
  by_cases h : p.name = ending ∨ ¬ ending <:+ p.name
  · exact .inl ⟨stem_of_not_suffix h, h⟩
  · obtain ⟨hne, hs⟩ := not_or.mp h
    obtain ⟨front, hf⟩ := Classical.not_not.mp hs
    have hn : front ≠ [] := by
      rintro rfl
      exact hne hf.symm
    rw [stem_of_suffix hn hf.symm]
    exact .inr ⟨hn, hf.symm⟩

end Path

end IntLang
