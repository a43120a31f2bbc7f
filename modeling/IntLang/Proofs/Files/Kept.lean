import IntLang.Proofs.Files.Grafts

/-!
# Files that stay as they are

* `FileTree.Keeps`: the files of one tree at certain places stand in another with the same texts;
* `keeps_write`: a file that is written concerns no other;
* `keeps_of_grown`: new directories concern no file;
* `write_again`: a file that is written once more with the same text changes nothing.
-/

namespace IntLang

namespace FileTree

variable {t t' t'' u : FileTree} {names place : List UnitText} {text old : String}

/-- The files of `t` at the places `kept` stand in `t'` with the same texts. -/
def Keeps (kept : List UnitText → Prop) (t t' : FileTree) : Prop :=
  ∀ names text, kept names → t.find names = .ok (.file text) → t'.find names = .ok (.file text)

section Keeps

variable {kept : List UnitText → Prop}

theorem Keeps.refl (kept : List UnitText → Prop) (t : FileTree) : t.Keeps kept t := fun _ _ _ hf => hf

theorem Keeps.trans (h : t.Keeps kept t') (h' : t'.Keeps kept t'') : t.Keeps kept t'' :=
  fun names text hk hf => h' names text hk (h names text hk hf)

theorem Keeps.mono {kept' : List UnitText → Prop} (h : t.Keeps kept t')
    (hk : ∀ names, kept' names → kept names) : t.Keeps kept' t' :=
  fun names text hn hf => h names text (hk names hn) hf

end Keeps

/-! ## Changes -/

variable {p : Path}

/-- **A file that is written concerns no other.** -/
theorem keeps_write (h : t.write p text = .ok t') : t.Keeps (· ≠ p.segments) t' := by
  intro names old hn hf
  rw [← standing_eq_text] at hf ⊢
  rw [standing_write h, if_neg hn, hf]

/-- **New directories concern no file.** -/
theorem keeps_of_grown {way : List UnitText} (kept : List UnitText → Prop)
    (h : ∀ names, t.GrownAt way t' names) : t.Keeps kept t' := by
  intro names old _ hf
  rw [← standing_eq_text] at hf ⊢
  obtain hs | ⟨-, hs, -⟩ := h names
  · exact hs.trans hf
  · exact absurd (hf.symm.trans hs) nofun

/-! ## Writing again -/

/-- What stands in a file can be written there, which changes nothing. -/
theorem writeAt_of_find (h : t.find place = .ok (.file text)) : writeAt text t place = .ok t := by
  induction place generalizing t with
  | nil =>
    cases h
    rfl
  | cons name place ih =>
    obtain ⟨entries, s, rfl, hc, hf⟩ := find_cons_eq_ok.mp h
    rw [writeAt, hc]
    dsimp only
    rw [ih hf]
    exact congrArg (Except.ok ∘ dir) (put_of_child? hc)

/-- **A file that is written once more with the same text changes nothing**, in whichever tree. -/
theorem write_again (h : t.write p text = .ok t') (hu : u.standing p.segments = .text text) :
    u.write p text = .ok u := by
  obtain ⟨written, -, hs⟩ := exists_ok_of_bind h
  split at hs
  · cases hs
  · next slash =>
    rw [write, writeAt_of_find (standing_eq_text.mp hu)]
    exact if_neg slash

/-- What exists is still there when a file is written. -/
theorem exists_write {q : Path} (h : t.write p text = .ok t') (hs : q.slash = false)
    (hx : t.exists q = true) : t'.exists q = true := by
  rw [exists_iff hs] at hx ⊢
  rw [standing_write h]
  split
  · exact nofun
  · exact hx

/-! ## Reading -/

theorem exists_congr (hs : p.slash = false) (h : t'.standing p.segments = t.standing p.segments) :
    t'.exists p = t.exists p := by
  rw [Bool.eq_iff_iff, exists_iff hs, exists_iff hs, h]

/-- A directory is not read. -/
theorem read_of_directory (h : t.standing p.segments = .directory) : t.read p = .error .isDirectory := by
  unfold standing at h
  unfold FileTree.read named
  split at h <;> simp_all

/-- **What is read of something that exists depends on what stands there.** -/
theorem read_congr (hs : p.slash = false) (h : t'.standing p.segments = t.standing p.segments)
    (hx : t.exists p = true) : t'.read p = t.read p := by
  rw [exists_iff hs] at hx
  cases hst : t.standing p.segments with
  | nothing => exact absurd hst hx
  | directory => rw [read_of_directory hst, read_of_directory (h.trans hst)]
  | text text => rw [read_eq_ok.mpr ⟨hs, hst⟩, read_eq_ok.mpr ⟨hs, h.trans hst⟩]

theorem Keeps.read {kept : List UnitText → Prop} (h : t.Keeps kept t') (hr : t.read p = .ok text)
    (hk : kept p.segments) : t'.read p = .ok text := by
  obtain ⟨hs, hf⟩ := read_eq_ok.mp hr
  exact read_eq_ok.mpr ⟨hs, standing_eq_text.mpr (h p.segments text hk (standing_eq_text.mp hf))⟩

end FileTree

end IntLang
