import IntLang.Proofs.Files.Standing

/-!
# What all texts of a tree have in common

* `FileTree.AllTexts`: every file of a tree has a text of a certain kind;
* `AllTexts.read`: so has what is read;
* **`AllTexts.write`**: file operations bring no other texts in than the one that is written.
-/

namespace IntLang.FileTree

/-- The text of every file is of a kind. -/
inductive AllTexts (P : String → Prop) : FileTree → Prop
  | file {text : String} (h : P text) : AllTexts P (.file text)
  | dir {entries : Entries} (h : ∀ e ∈ entries, AllTexts P e.2) : AllTexts P (.dir entries)

variable {P : String → Prop} {t t' u : FileTree} {entries : Entries} {name : UnitText}
  {names place : List UnitText} {text : String}

/-! ## Entries -/

theorem forall_mem_put (ht : AllTexts P t) (h : ∀ e ∈ entries, AllTexts P e.2) :
    ∀ e ∈ put name t entries, AllTexts P e.2 := by
  induction entries with
  | nil => exact List.forall_mem_singleton.mpr ht
  | cons e entries ih =>
    obtain ⟨he, h⟩ := List.forall_mem_cons.mp h
    rw [put]
    split
    · exact List.forall_mem_cons.mpr ⟨ht, h⟩
    · exact List.forall_mem_cons.mpr ⟨he, ih h⟩

namespace AllTexts

theorem empty : AllTexts P FileTree.empty := .dir (List.forall_mem_nil _)

theorem of_dir (h : AllTexts P (.dir entries)) : ∀ e ∈ entries, AllTexts P e.2 := by
  cases h with
  | dir h => exact h

theorem of_file (h : AllTexts P (.file text)) : P text := by
  cases h with
  | file h => exact h

theorem put (h : AllTexts P (.dir entries)) (ht : AllTexts P t) (name : UnitText) :
    AllTexts P (.dir (FileTree.put name t entries)) := .dir (forall_mem_put ht h.of_dir)

theorem child? (h : AllTexts P (.dir entries)) (hc : FileTree.child? name entries = some t) :
    AllTexts P t := h.of_dir _ (mem_of_child? hc)

/-! ## Looking -/

theorem find (h : AllTexts P t) (hf : t.find names = .ok u) : AllTexts P u := by
  induction names generalizing t with
  | nil =>
    cases hf
    exact h
  | cons name names ih =>
    cases t with
    | file text => cases hf
    | dir entries =>
      rw [FileTree.find] at hf
      split at hf
      · cases hf
      · next hc => exact ih (h.child? hc) hf

/-- **What is read is of the kind.** -/
theorem read {p : Path} (h : AllTexts P t) (hr : t.read p = .ok text) : P text :=
  (h.find (standing_eq_text.mp (read_eq_ok.mp hr).2)).of_file

/-! ## Changing -/

theorem writeAt (h : AllTexts P t) (hp : P text) (hw : FileTree.writeAt text t place = .ok t') :
    AllTexts P t' := by
  induction place generalizing t t' with
  | nil =>
    cases t with
    | file old =>
      cases hw
      exact .file hp
    | dir entries => cases hw
  | cons name place ih =>
    cases t with
    | file old => cases hw
    | dir entries =>
      rw [FileTree.writeAt] at hw
      split at hw
      · next hc =>
        obtain ⟨u, hu, hw⟩ := exists_ok_of_bind hw
        cases hw
        exact h.put (ih (h.child? hc) hu) name
      · split at hw
        · cases hw
          exact h.put (.file hp) name
        · cases hw

/-- **A file that is written brings in no other text.** -/
theorem write {p : Path} (h : AllTexts P t) (hp : P text) (hw : t.write p text = .ok t') :
    AllTexts P t' := by
  obtain ⟨u, hu, hw⟩ := exists_ok_of_bind hw
  split at hw
  · cases hw
  · cases hw
    exact h.writeAt hp hu

theorem makeDirs (h : AllTexts P t) (hm : t.makeDirs place = .ok t') : AllTexts P t' := by
  induction place generalizing t t' with
  | nil =>
    cases t with
    | file old => cases hm
    | dir entries =>
      cases hm
      exact h
  | cons name place ih =>
    cases t with
    | file old => cases hm
    | dir entries =>
      obtain ⟨u, hu, hm⟩ := exists_ok_of_bind hm
      cases hm
      refine h.put (ih ?_ hu) name
      cases hc : FileTree.child? name entries with
      | none => exact .empty
      | some t => exact h.child? hc

theorem remove (h : AllTexts P t) (place : List UnitText) : AllTexts P (t.remove place) := by
  induction t, place using FileTree.remove.induct with
  | case1 => exact .empty
  | case2 entries name => exact .dir fun e he => h.of_dir e ((List.mem_filter.mp he).1)
  | case3 entries name names hn hc =>
    rw [FileTree.remove, hc]
    · exact h
    · exact hn
  | case4 entries name names hn t hc ih =>
    rw [FileTree.remove, hc]
    · exact h.put (ih (h.child? hc)) name
    · exact hn
  | case5 t place hr ho hm =>
    rw [FileTree.remove]
    · exact h
    all_goals assumption

end AllTexts

end IntLang.FileTree
