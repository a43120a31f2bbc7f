import IntLang.Proofs.Files.Names
import IntLang.Proofs.Files.Standing
import Mathlib.Data.List.Nodup

/-!
# Directories with proper names

A tree is only a tree of files if its entries can be told apart and named.

* `FileTree.Proper`: every entry has a name of its own, all the way down;
* `FileTree.places`: where the files of a directory stand;
* `mem_places`, `nodup_places`: each file stands at one place, which is listed once.
-/

namespace IntLang

namespace FileTree

variable {entries : Entries} {place : List UnitText}

/-- Every entry has a name, no two entries have the same, and it is so in every directory below. -/
inductive Proper : Entries → Prop
  | nil : Proper []
  | file {name : UnitText} {text : String} {entries : Entries} (hn : Path.IsName name)
    (hc : child? name entries = none) (h : Proper entries) : Proper ((name, .file text) :: entries)
  | dir {name : UnitText} {below entries : Entries} (hn : Path.IsName name)
    (hc : child? name entries = none) (hb : Proper below) (h : Proper entries) :
    Proper ((name, .dir below) :: entries)

mutual

/-- The places of the files in a tree. -/
def placesOf : FileTree → List (List UnitText)
  | .file _ => [[]]
  | .dir entries => places entries

/-- The places of the files in a directory and below it. -/
def places : Entries → List (List UnitText)
  | [] => []
  | (name, t) :: entries => (placesOf t).map (name :: ·) ++ places entries

end

theorem places_file (name : UnitText) (text : String) (entries : Entries) :
    places ((name, file text) :: entries) = [name] :: places entries := rfl

theorem places_dir (name : UnitText) (below entries : Entries) :
    places ((name, dir below) :: entries) = (places below).map (name :: ·) ++ places entries := rfl

/-- What is found in a directory, by its first entry. -/
theorem find_cons (name other : UnitText) (t : FileTree) (entries : Entries) (rest : List UnitText) :
    (dir ((name, t) :: entries)).find (other :: rest) =
      if name = other then t.find rest else (dir entries).find (other :: rest) := by
  by_cases h : name = other
  · rw [if_pos h, find, child?, if_pos h]
  · rw [if_neg h, find, child?, if_neg h, find]

/-- What stands in a directory, by its first entry. -/
theorem standing_cons (name other : UnitText) (t : FileTree) (entries : Entries)
    (rest : List UnitText) :
    (dir ((name, t) :: entries)).standing (other :: rest) =
      if name = other then t.standing rest else (dir entries).standing (other :: rest) := by
  rw [standing_dir_cons, standing_dir_cons, child?]
  by_cases h : name = other <;> simp [h]

/-- **A file is what stands at a listed place.** -/
theorem mem_places (h : Proper entries) :
    place ∈ places entries ↔ ∃ text, (dir entries).standing place = .text text := by
  induction h generalizing place with
  | nil =>
    refine iff_of_false List.not_mem_nil ?_
    rintro ⟨text, hs⟩
    cases place <;> cases hs
  | @file name text entries hn hc h ih =>
    rw [places_file, List.mem_cons, ih]
    cases place with
    | nil => simp
    | cons other rest =>
      rw [standing_cons]
      split
      · next ho =>
        subst ho
        rw [standing_of_no_child? hc]
        cases rest <;> simp [standing, find]
      · next ho => simp [Ne.symm ho]
  | @dir name below entries hn hc hb h ihb ih =>
    rw [places_dir, List.mem_append, ih, List.mem_map]
    cases place with
    | nil => simp
    | cons other rest =>
      rw [standing_cons]
      split
      · next ho =>
        subst ho
        rw [standing_of_no_child? hc]
        simp [ihb]
      · next ho => simp [ho]

theorem nodup_places (h : Proper entries) : (places entries).Nodup := by
  induction h with
  | nil => exact List.nodup_nil
  | @file name text entries hn hc h ih =>
    refine List.nodup_cons.mpr ⟨fun hm => ?_, ih⟩
    obtain ⟨text, hs⟩ := (mem_places h).mp hm
    rw [standing_of_no_child? hc] at hs
    cases hs
  | @dir name below entries hn hc hb h ihb ih =>
    refine List.nodup_append'.mpr ⟨ihb.map fun _ _ he => (List.cons.inj he).2, ih, ?_⟩
    intro place hp hm
    obtain ⟨rest, -, rfl⟩ := List.mem_map.mp hp
    obtain ⟨text, hs⟩ := (mem_places h).mp hm
    rw [standing_of_no_child? hc] at hs
    cases hs

namespace Proper

/-- What stands in a directory has a name. -/
theorem isName (h : Proper entries) (hs : (FileTree.dir entries).standing place ≠ .nothing) :
    ∀ name ∈ place, Path.IsName name := by
  induction h generalizing place with
  | nil =>
    cases place with
    | nil => exact List.forall_mem_nil _
    | cons => exact absurd rfl hs
  | @file name text entries hn hc h ih =>
    cases place with
    | nil => exact List.forall_mem_nil _
    | cons other rest =>
      rw [standing_cons] at hs
      split at hs
      · next ho =>
        subst ho
        cases rest with
        | nil => exact List.forall_mem_singleton.mpr hn
        | cons => exact absurd rfl hs
      · exact ih hs
  | @dir name below entries hn hc hb h ihb ih =>
    cases place with
    | nil => exact List.forall_mem_nil _
    | cons other rest =>
      rw [standing_cons] at hs
      split at hs
      · next ho =>
        subst ho
        exact List.forall_mem_cons.mpr ⟨hn, ihb hs⟩
      · exact ih hs

/-- The entries of a directory below have names of their own as well. -/
theorem find {below : Entries} (h : Proper entries)
    (hf : (FileTree.dir entries).find place = .ok (.dir below)) : Proper below := by
  cases place with
  | nil =>
    cases hf
    exact h
  | cons other rest =>
    induction h generalizing other rest with
    | nil => cases hf
    | @file name text entries hn hc h ih =>
      rw [find_cons] at hf
      split at hf
      · cases rest <;> cases hf
      · exact ih other rest hf
    | @dir name inner entries hn hc hb h ihb ih =>
      rw [find_cons] at hf
      split at hf
      · cases rest with
        | nil =>
          cases hf
          exact hb
        | cons next rest => exact ihb next rest hf
      · exact ih other rest hf

end Proper

end FileTree

end IntLang
