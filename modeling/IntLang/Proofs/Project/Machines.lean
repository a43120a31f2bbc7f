import IntLang.Project.Workspace
import IntLang.Proofs.Files.Kept

/-!
# Machines that refuse, and processes that change files

The directories of a path are made one after another, so a place that is refused may leave those above it
behind. What a process does to the files is known at the places that it spares.

* `Machine.Made`: what is made of a path, and how far; `made_makeDirs`: there is nothing else;
* `Machine.grownAt_makeDirs`: nothing changes but the way, also where a directory is refused;
* `Machine.makeDirs_again`: what could not be made fails once more, and what was made stays;
* `Machine.Spares`: a place that no process changes.
-/

namespace IntLang

namespace FileTree

variable {t t' u : FileTree} {names place front : List UnitText}

theorem isNone_find : (t.find names).toOption.isNone = true ↔ t.standing names = .nothing := by
  unfold standing
  rcases t.find names with e | (_ | _) <;> simp [Except.toOption]

end FileTree

namespace Machine

variable {m : Machine} {t t' u : FileTree} {p : Path} {text : String} {names place front : List UnitText}
  {fault : Option FileFault}

/-! ## Writing -/

theorem write_eq_ok :
    m.write p text t = .ok t' ↔ t.write p text = .ok t' ∧ m.refuses p.segments = false := by
  unfold write
  cases t.write p text with
  | error e => simp [bind, Except.bind]
  | ok written => cases m.refuses p.segments <;> simp [bind, Except.bind]

theorem standing_write (h : m.write p text t = .ok t') (names : List UnitText) :
    t'.standing names = if names = p.segments then .text text else t.standing names :=
  FileTree.standing_write (write_eq_ok.mp h).1 names

/-- **A file that is written once more with the same text changes nothing**, in whichever tree. -/
theorem write_again (h : m.write p text t = .ok t') (hu : u.standing p.segments = .text text) :
    m.write p text u = .ok u := by
  obtain ⟨written, free⟩ := write_eq_ok.mp h
  exact write_eq_ok.mpr ⟨FileTree.write_again written hu, free⟩

/-! ## Making directories -/

/-- A directory of a path, by its depth, that is missing and refused. -/
def Bars (m : Machine) (names : List UnitText) (t : FileTree) (n : Nat) : Prop :=
  m.refuses (names.take (n + 1)) = true ∧ t.standing (names.take (n + 1)) = .nothing

theorem barrier?_eq_some {n : Nat} : m.barrier? names t = some n ↔
    n < names.length ∧ m.Bars names t n ∧ ∀ k < n, ¬ m.Bars names t k := by
  unfold barrier? Bars
  simp only [List.find?_range_eq_some, Bool.and_eq_true, FileTree.isNone_find, List.mem_range,
    Bool.not_eq_true', Bool.eq_false_iff, ne_eq]
  exact and_left_comm

theorem barrier?_eq_none : m.barrier? names t = none ↔ ∀ n < names.length, ¬ m.Bars names t n := by
  unfold barrier? Bars
  simp only [List.find?_range_eq_none, Bool.and_eq_true, FileTree.isNone_find, Bool.not_eq_true',
    Bool.eq_false_iff, ne_eq]

/-- What is made of the directories of a path: all, or nothing because a file is on the way, or those above
the first that is refused. -/
inductive Made (m : Machine) (names : List UnitText) (t : FileTree) : Option FileFault × FileTree → Prop
  | whole {made : FileTree} (h : t.makeDirs names = .ok made)
    (hb : ∀ n < names.length, ¬ m.Bars names t n) : Made m names t (none, made)
  | blocked {e : FileFault} (h : t.makeDirs names = .error e) : Made m names t (some e, t)
  | refused {n : Nat} {made part : FileTree} (h : t.makeDirs names = .ok made)
    (hb : m.barrier? names t = some n) (hp : t.makeDirs (names.take n) = .ok part) :
    Made m names t (some .refused, part)

theorem made_makeDirs (m : Machine) (names : List UnitText) (t : FileTree) :
    Made m names t (m.makeDirs names t) := by
  unfold makeDirs
  cases hm : t.makeDirs names with
  | error e => exact .blocked hm
  | ok made =>
    dsimp only
    cases hb : m.barrier? names t with
    | none => exact .whole hm (barrier?_eq_none.mp hb)
    | some n =>
      obtain ⟨part, hp⟩ := FileTree.exists_makeDirs_of_prefix hm (List.take_prefix n names)
      dsimp only
      rw [hp]
      exact .refused hm hb hp

theorem makeDirs_of_none (h : m.makeDirs names t = (none, t')) : t.makeDirs names = .ok t' := by
  have made := made_makeDirs m names t
  rw [h] at made
  cases made with
  | whole h => exact h

/-- **Nothing changes but the way**, where directories may be new. -/
theorem grownAt_makeDirs (h : m.makeDirs names t = (fault, t')) (place : List UnitText) :
    t.GrownAt names t' place := by
  have made := made_makeDirs m names t
  rw [h] at made
  cases made with
  | whole h => exact FileTree.grownAt_makeDirs h place
  | blocked h => exact .refl names t place
  | refused _ _ hp =>
    obtain same | ⟨way, new⟩ := FileTree.grownAt_makeDirs hp place
    · exact .inl same
    · exact .inr ⟨way.trans (List.take_prefix _ names), new⟩

/-- **Directories are made once**: what could not be made fails once more, and what was made stays. -/
theorem makeDirs_again (h : m.makeDirs names t = (fault, t')) : m.makeDirs names t' = (fault, t') := by
  have made := made_makeDirs m names t
  rw [h] at made
  cases made with
  | blocked blocked => exact h
  | whole made =>
    have there (n : Nat) : t'.standing (names.take n) = .directory := by
      rw [FileTree.standing_makeDirs made, if_pos (List.take_prefix n names)]
    have same : t'.makeDirs names = .ok t' :=
      FileTree.makeDirs_of_directory (by rw [← List.take_length (l := names)]; exact there _)
    have free : m.barrier? names t' = none := by
      refine barrier?_eq_none.mpr fun n _ ⟨_, missing⟩ => ?_
      rw [there] at missing
      cases missing
    rw [makeDirs, same]
    dsimp only
    rw [free]
  | @refused n made _ whole barrier part =>
    obtain ⟨hn, ⟨refused, missing⟩, before⟩ := barrier?_eq_some.mp barrier
    have there (k : Nat) (hk : k ≤ n) : t'.standing (names.take k) = .directory := by
      rw [FileTree.standing_makeDirs part, if_pos (List.take_prefix_take_left hk)]
    have still : t'.standing (names.take (n + 1)) = .nothing := by
      rw [FileTree.standing_makeDirs part, if_neg, missing]
      intro hp
      have hl := hp.length_le
      rw [List.length_take, List.length_take] at hl
      omega
    obtain ⟨all, whole⟩ := FileTree.exists_makeDirs_of_grown whole (grownAt_makeDirs h)
    have bars : m.barrier? names t' = some n := by
      refine barrier?_eq_some.mpr ⟨hn, ⟨refused, still⟩, fun k hk ⟨_, absent⟩ => ?_⟩
      rw [there (k + 1) hk] at absent
      cases absent
    rw [makeDirs, whole]
    dsimp only
    rw [bars]
    dsimp only
    rw [FileTree.makeDirs_of_directory (there n (Nat.le_refl n))]
    rfl

/-- Where directories cannot be made, the last of them is still missing. -/
theorem exists_of_makeDirs_fault {e : FileFault} (hs : p.slash = false) (hx : t.exists p = false)
    (h : m.makeDirs p.segments t = (some e, t')) : t'.exists p = false := by
  have made := made_makeDirs m p.segments t
  rw [h] at made
  cases made with
  | blocked => exact hx
  | @refused n _ _ _ barrier part =>
    obtain ⟨hn, -⟩ := barrier?_eq_some.mp barrier
    rw [FileTree.exists_congr hs, hx]
    rw [FileTree.standing_makeDirs part, if_neg]
    intro hp
    have hl := hp.length_le
    rw [List.length_take] at hl
    omega

/-! ## Processes -/

/-- No process changes what stands at a place. -/
def Spares (m : Machine) (names : List UnitText) : Prop :=
  ∀ call result t, (m.effect call result t).standing names = t.standing names

theorem Spares.touch (h : m.Spares names) (call : List UnitText) (outcome : Outcome) (t : FileTree) :
    (m.touch call outcome t).standing names = t.standing names := by
  cases outcome with
  | ended result => exact h call result t
  | notStarted => rfl

theorem spares_inert (names : List UnitText) : inert.Spares names := fun _ _ _ => rfl

end Machine

end IntLang
