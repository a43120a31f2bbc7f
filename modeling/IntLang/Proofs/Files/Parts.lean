import IntLang.Proofs.Files.Grafts

/-!
# Parts of trees

A tree is part of another if all that stands in it stands there as well. What is made where nothing stood
makes a larger tree, also where it is not finished.

* `FileTree.Part`: the order on trees;
* `part_of_grown`, `part_graft`: new directories, and new entries of a directory;
* `part_makeDirs`: a part of a way.
-/

namespace IntLang

namespace FileTree

variable {t t' u v : FileTree} {entries done more : Entries} {name : UnitText}
  {names place front : List UnitText}

/-- All that stands in one tree stands in the other. -/
def Part (t u : FileTree) : Prop :=
  ∀ names, t.standing names ≠ .nothing → u.standing names = t.standing names

namespace Part

theorem refl (t : FileTree) : t.Part t := fun _ _ => rfl

theorem trans (h : t.Part t') (h' : t'.Part u) : t.Part u := fun names hn => by
  rw [h' names (by rwa [h names hn]), h names hn]

theorem ne_nothing (h : t.Part u) (hn : t.standing names ≠ .nothing) : u.standing names ≠ .nothing := by
  rwa [h names hn]

end Part

theorem part_of_grown {way : List UnitText} (h : ∀ names, t.GrownAt way t' names) : t.Part t' := by
  intro names hn
  obtain same | ⟨-, nothing, -⟩ := h names
  · exact same
  · exact absurd nothing hn

/-! ## Entries -/

theorem part_append (entries more : Entries) : (dir entries).Part (dir (entries ++ more)) := by
  rintro (_ | ⟨name, rest⟩) hn
  · rfl
  · rw [standing_dir_cons] at hn ⊢
    rw [standing_dir_cons, child?_append]
    cases hc : child? name entries with
    | some t => rfl
    | none =>
      rw [hc] at hn
      exact absurd rfl hn

theorem part_graft (h : t.find place = .ok u) (hp : u.Part v) : t.Part (graft v t place) := by
  obtain ⟨inside, outside⟩ := standing_graft h v
  intro names hn
  by_cases hf : place <+: names
  · obtain ⟨rest, rfl⟩ := hf
    rw [standing_append h] at hn ⊢
    rw [inside, hp rest hn]
  · exact outside names hf

theorem graft_part_graft (h : t.find place = .ok u) (hp : v.Part t') :
    (graft v t place).Part (graft t' t place) := by
  rw [← graft_graft h v t']
  exact part_graft (find_graft h v) hp

/-! ## Ways -/

theorem standing_above (h : t.standing place = .directory) (hp : front <+: place) :
    t.standing front = .directory := by
  rw [standing_makeDirs (makeDirs_of_directory h), if_pos hp]

/-- **A part of a way makes a part of the tree.** -/
theorem part_makeDirs (h : t.makeDirs place = .ok u) (hp : front <+: place)
    (hf : t.makeDirs front = .ok v) : v.Part u := by
  intro names hn
  rw [standing_makeDirs hf] at hn ⊢
  rw [standing_makeDirs h]
  by_cases way : names <+: place
  · rw [if_pos way]
    split at hn
    · next hfront => rw [if_pos hfront]
    · next hfront =>
      rw [if_neg hfront]
      exact ((standing_of_makeDirs h way).resolve_right hn).symm
  · rw [if_neg way, if_neg fun hfront => way (hfront.trans hp)]

end FileTree

end IntLang
