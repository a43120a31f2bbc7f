import IntLang.Proofs.Files.Standing

/-!
# Trees in the place of others

What a file operation does below a directory is what it does to the directory itself, put in its place.

* `FileTree.graft` puts a tree in the place that a path leads to;
* `FileTree.Descends.append`: an operation whose path starts with the one of a directory;
* `writeAt_entry`, `makeDirs_entry`: new entries come last in their directory;
* `standing_graft`: what stands behind a graft, at every place;
* `FileTree.Apart`: places that do not concern each other.
-/

namespace IntLang

namespace FileTree

variable {t t' u v : FileTree} {entries done : Entries} {name other : UnitText}
  {names place rest : List UnitText} {text : String}

/-! ## Entries -/

theorem put_put (name : UnitText) (t u : FileTree) (entries : Entries) :
    put name u (put name t entries) = put name u entries := by
  induction entries with
  | nil => simp [put]
  | cons e entries ih =>
    simp only [put]
    split
    · simp [put]
    · next h => simp [put, h, ih]

theorem put_of_child? (h : child? name entries = some t) : put name t entries = entries := by
  induction entries with
  | nil => cases h
  | cons e entries ih =>
    rw [child?] at h
    rw [put]
    split
    · next he =>
      rw [if_pos he] at h
      rw [← Option.some.inj h, ← he]
    · next he =>
      rw [if_neg he] at h
      rw [ih h]

/-- A new entry comes last. -/
theorem put_of_no_child? (h : child? name entries = none) (t : FileTree) :
    put name t entries = entries ++ [(name, t)] := by
  induction entries with
  | nil => rfl
  | cons e entries ih =>
    rw [child?] at h
    split at h
    · cases h
    · next he => rw [put, if_neg he, ih h, List.cons_append]

theorem child?_append (name : UnitText) (entries more : Entries) :
    child? name (entries ++ more) = (child? name entries).or (child? name more) := by
  induction entries with
  | nil => rfl
  | cons e entries ih =>
    rw [List.cons_append, child?, child?, ih]
    split <;> rfl

/-! ## Grafts -/

/-- The tree with another tree in the place that a path leads to, if it leads anywhere. -/
def graft (u : FileTree) : FileTree → List UnitText → FileTree
  | _, [] => u
  | .file text, _ :: _ => .file text
  | .dir entries, name :: names =>
    match child? name entries with
    | none => .dir entries
    | some t => .dir (put name (graft u t names) entries)

theorem graft_cons (h : child? name entries = some t) (u : FileTree) (rest : List UnitText) :
    graft u (dir entries) (name :: rest) = dir (put name (graft u t rest) entries) := by
  rw [graft, h]

/-- A path to a tree leads on through directories. -/
theorem find_cons_eq_ok : t.find (name :: rest) = .ok u ↔
    ∃ entries s, t = dir entries ∧ child? name entries = some s ∧ s.find rest = .ok u := by
  constructor
  · intro h
    cases t with
    | file text => cases h
    | dir entries =>
      rw [find] at h
      cases hc : child? name entries with
      | none =>
        rw [hc] at h
        cases h
      | some s =>
        rw [hc] at h
        exact ⟨entries, s, rfl, hc, h⟩
  · rintro ⟨entries, s, rfl, hc, h⟩
    rw [find, hc]
    exact h

theorem find_graft (h : t.find place = .ok v) (u : FileTree) :
    (graft u t place).find place = .ok u := by
  induction place generalizing t with
  | nil => rfl
  | cons name place ih =>
    obtain ⟨entries, s, rfl, hc, hf⟩ := find_cons_eq_ok.mp h
    rw [graft_cons hc]
    exact find_cons_eq_ok.mpr ⟨_, _, rfl, child?_put_self _ _ _, ih hf⟩

theorem graft_self (h : t.find place = .ok u) : graft u t place = t := by
  induction place generalizing t with
  | nil => exact (Except.ok.inj h).symm
  | cons name place ih =>
    obtain ⟨entries, s, rfl, hc, hf⟩ := find_cons_eq_ok.mp h
    rw [graft_cons hc, ih hf, put_of_child? hc]

theorem graft_graft (h : t.find place = .ok v) (u u' : FileTree) :
    graft u' (graft u t place) place = graft u' t place := by
  induction place generalizing t with
  | nil => rfl
  | cons name place ih =>
    obtain ⟨entries, s, rfl, hc, hf⟩ := find_cons_eq_ok.mp h
    rw [graft_cons hc, graft_cons hc, graft_cons (child?_put_self _ _ _), ih hf, put_put]

theorem graft_append (h : t.find place = .ok u) (v : FileTree) (rest : List UnitText) :
    graft v t (place ++ rest) = graft (graft v u rest) t place := by
  induction place generalizing t with
  | nil => rw [List.nil_append, Except.ok.inj h]; rfl
  | cons name place ih =>
    obtain ⟨entries, s, rfl, hc, hf⟩ := find_cons_eq_ok.mp h
    rw [List.cons_append, graft_cons hc, graft_cons hc, ih hf]

theorem find_append (h : t.find place = .ok u) (rest : List UnitText) :
    t.find (place ++ rest) = u.find rest := by
  induction place generalizing t with
  | nil => rw [List.nil_append, Except.ok.inj h]
  | cons name place ih =>
    obtain ⟨entries, s, rfl, hc, hf⟩ := find_cons_eq_ok.mp h
    rw [List.cons_append, find, hc]
    exact ih hf

/-! ## Operations below a directory -/

/-- Below an entry of a directory, the operation works on the entry. -/
def Descends (op : FileTree → List UnitText → Except FileFault FileTree) : Prop :=
  ∀ (entries : Entries) (name : UnitText) (t : FileTree) (rest : List UnitText),
    child? name entries = some t →
      op (dir entries) (name :: rest) = (op t rest).map fun u => dir (put name u entries)

theorem descends_writeAt (text : String) : Descends (writeAt text) := by
  intro entries name t rest hc
  rw [writeAt, hc]
  dsimp only
  cases writeAt text t rest <;> rfl

theorem descends_makeDirs : Descends makeDirs := by
  intro entries name t rest hc
  rw [makeDirs, hc, Option.getD_some]
  cases t.makeDirs rest <;> rfl

/-- **An operation below the place of a tree works on that tree.** -/
theorem Descends.append {op : FileTree → List UnitText → Except FileFault FileTree}
    (ho : Descends op) (h : t.find place = .ok u) (rest : List UnitText) :
    op t (place ++ rest) = (op u rest).map fun v => graft v t place := by
  induction place generalizing t with
  | nil =>
    rw [List.nil_append, Except.ok.inj h]
    cases op u rest <;> rfl
  | cons name place ih =>
    obtain ⟨entries, s, rfl, hc, hf⟩ := find_cons_eq_ok.mp h
    rw [List.cons_append, ho _ _ _ _ hc, ih hf]
    cases op u rest with
    | error e => rfl
    | ok v => exact congrArg Except.ok (graft_cons hc v place).symm

theorem writeAt_entry (h : t.find place = .ok (dir done)) (hn : child? name done = none)
    (text : String) :
    writeAt text t (place ++ [name]) = .ok (graft (dir (done ++ [(name, file text)])) t place) := by
  have hw : writeAt text (dir done) [name] = .ok (dir (done ++ [(name, file text)])) := by
    rw [writeAt, hn, ← put_of_no_child? hn]
    rfl
  rw [(descends_writeAt text).append h, hw]
  rfl

theorem makeDirs_entry (h : t.find place = .ok (dir done)) (hn : child? name done = none) :
    t.makeDirs (place ++ [name]) = .ok (graft (dir (done ++ [(name, empty)])) t place) := by
  have hm : (dir done).makeDirs [name] = .ok (dir (done ++ [(name, empty)])) := by
    rw [makeDirs, hn, ← put_of_no_child? hn]
    rfl
  rw [descends_makeDirs.append h, hm]
  rfl

/-- A tree in the place of an entry that was made last. -/
theorem graft_entry (h : t.find place = .ok (dir done)) (hn : child? name done = none)
    (v u : FileTree) :
    graft u (graft (dir (done ++ [(name, v)])) t place) (place ++ [name]) =
      graft (dir (done ++ [(name, u)])) t place := by
  have hput : graft u (dir (done ++ [(name, v)])) [name] = dir (done ++ [(name, u)]) := by
    rw [← put_of_no_child? hn, graft_cons (child?_put_self _ _ _), put_put, put_of_no_child? hn]
    rfl
  rw [graft_append (find_graft h _), hput, graft_graft h]

/-! ## New directories -/

/-- Where nothing stood, a new directory is empty. -/
theorem find_makeDirs (hs : t.standing place = .nothing) (h : t.makeDirs place = .ok t') :
    t'.find place = .ok empty := by
  induction place generalizing t t' with
  | nil =>
    cases t with
    | file => cases h
    | dir => cases hs
  | cons name place ih =>
    cases t with
    | file => cases h
    | dir entries =>
      rw [makeDirs] at h
      obtain ⟨u, hu, h⟩ := exists_ok_of_bind h
      cases h
      refine find_cons_eq_ok.mpr ⟨_, u, rfl, child?_put_self _ _ _, ?_⟩
      by_cases hp : place = []
      · subst hp
        cases hc : child? name entries with
        | none =>
          rw [hc] at hu
          cases hu
          rfl
        | some s =>
          rw [standing_of_child? hc] at hs
          cases s <;> cases hs
      · refine ih ?_ hu
        rw [standing_getD_empty entries name hp, hs]

/-- New directories fail at a file on their way, and nowhere else. -/
theorem makeDirs_eq_error {e : FileFault} : t.makeDirs place = .error e ↔
    e = .notDirectory ∧ ∃ front, front <+: place ∧ ∃ text, t.standing front = .text text := by
  induction place generalizing t with
  | nil =>
    cases t with
    | file text =>
      refine ⟨fun h => ?_, fun h => h.1 ▸ rfl⟩
      exact ⟨(Except.error.inj h).symm, [], List.nil_prefix, text, rfl⟩
    | dir entries => simp [makeDirs]
  | cons name place ih =>
    cases t with
    | file text =>
      refine ⟨fun h => ?_, fun h => h.1 ▸ rfl⟩
      exact ⟨(Except.error.inj h).symm, [], List.nil_prefix, text, rfl⟩
    | dir entries =>
      have below : (dir entries).makeDirs (name :: place) = .error e ↔
          ((child? name entries).getD empty).makeDirs place = .error e := by
        rw [makeDirs]
        cases ((child? name entries).getD empty).makeDirs place <;>
          simp [bind, Except.bind, pure, Except.pure]
      have entry (front : List UnitText) (text : String) :
          (dir entries).standing (name :: front) = .text text ↔
            ((child? name entries).getD empty).standing front = .text text := by
        rw [standing_dir_cons]
        cases child? name entries with
        | none => cases front <;> exact iff_of_false (by rintro ⟨⟩) (by rintro ⟨⟩)
        | some s => rfl
      rw [below, ih]
      refine and_congr_right fun _ => ⟨?_, ?_⟩
      · rintro ⟨front, hp, text, hs⟩
        exact ⟨name :: front, List.cons_prefix_cons.mpr ⟨rfl, hp⟩, text, (entry front text).mpr hs⟩
      · rintro ⟨_ | ⟨other, front⟩, hp, text, hs⟩
        · cases hs
        · obtain ⟨rfl, hf⟩ := List.cons_prefix_cons.mp hp
          exact ⟨front, hf, text, (entry front text).mp hs⟩

/-- Where a path can be made, so can the paths above. -/
theorem exists_makeDirs_of_prefix (h : t.makeDirs place = .ok t') (hp : front <+: place) :
    ∃ part, t.makeDirs front = .ok part := by
  cases hm : t.makeDirs front with
  | ok part => exact ⟨part, rfl⟩
  | error e =>
    obtain ⟨he, above, ha, blocked⟩ := makeDirs_eq_error.mp hm
    have fails := makeDirs_eq_error.mpr ⟨he, above, ha.trans hp, blocked⟩
    rw [h] at fails
    cases fails

/-- Directories that are new are not in the way of others. -/
theorem exists_makeDirs_of_grown {way : List UnitText} (h : t.makeDirs place = .ok u)
    (hg : ∀ names, t.GrownAt way t' names) : ∃ made, t'.makeDirs place = .ok made := by
  cases hm : t'.makeDirs place with
  | ok made => exact ⟨made, rfl⟩
  | error e =>
    obtain ⟨he, above, ha, text, blocked⟩ := makeDirs_eq_error.mp hm
    have stood : t.standing above = .text text := by
      obtain same | ⟨-, -, new⟩ := hg above
      · exact same.symm.trans blocked
      · rw [new] at blocked
        cases blocked
    have fails := makeDirs_eq_error.mpr ⟨he, above, ha, text, stood⟩
    rw [h] at fails
    cases fails

/-- Directories that are there already are left as they are. -/
theorem makeDirs_of_directory (h : t.standing place = .directory) : t.makeDirs place = .ok t := by
  induction place generalizing t with
  | nil =>
    cases t with
    | file => cases h
    | dir => rfl
  | cons name place ih =>
    cases t with
    | file => cases h
    | dir entries =>
      rw [standing_dir_cons] at h
      cases hc : child? name entries with
      | none =>
        rw [hc] at h
        cases h
      | some s =>
        rw [hc] at h
        rw [makeDirs, hc, Option.getD_some, ih h]
        exact congrArg (Except.ok ∘ dir) (put_of_child? hc)

/-! ## What stands behind a graft -/

theorem standing_append (h : t.find place = .ok u) (rest : List UnitText) :
    t.standing (place ++ rest) = u.standing rest := by
  rw [standing, find_append h, standing]

/-- Nothing stands below a place where nothing stands. -/
theorem standing_append_of_nothing (h : t.standing place = .nothing) (rest : List UnitText) :
    t.standing (place ++ rest) = .nothing := by
  induction place generalizing t with
  | nil => cases t <;> cases h
  | cons name place ih =>
    cases t with
    | file text => rfl
    | dir entries =>
      rw [List.cons_append, standing_dir_cons]
      rw [standing_dir_cons] at h
      cases hc : child? name entries with
      | none => rfl
      | some s =>
        rw [hc] at h
        exact ih h

/-- **A graft stands at its place, and concerns no other.** -/
theorem standing_graft (h : t.find place = .ok v) (u : FileTree) :
    (∀ rest, (graft u t place).standing (place ++ rest) = u.standing rest) ∧
      ∀ names, ¬ place <+: names → (graft u t place).standing names = t.standing names := by
  refine ⟨standing_append (find_graft h u), ?_⟩
  induction place generalizing t with
  | nil => exact fun names hn => absurd List.nil_prefix hn
  | cons name place ih =>
    obtain ⟨entries, s, rfl, hc, hf⟩ := find_cons_eq_ok.mp h
    rw [graft_cons hc]
    rintro (_ | ⟨other, rest⟩) hn
    · rfl
    · rw [standing_put]
      split
      · next ho =>
        subst ho
        rw [standing_of_child? hc]
        exact ih hf rest fun hp => hn (List.cons_prefix_cons.mpr ⟨rfl, hp⟩)
      · rfl

/-! ## Places apart -/

/-- Neither of two places lies in the other. -/
def Apart (place other : List UnitText) : Prop := ¬ place <+: other ∧ ¬ other <+: place

theorem Apart.append {other : List UnitText} (h : Apart place other) (rest more : List UnitText) :
    Apart (place ++ rest) (other ++ more) := by
  have apart {front back rest more : List UnitText} (h : Apart front back) :
      ¬ front ++ rest <+: back ++ more := fun hp =>
    (List.prefix_or_prefix_of_prefix ((List.prefix_append front rest).trans hp)
      (List.prefix_append back more)).elim h.1 h.2
  exact ⟨apart h, apart ⟨h.2, h.1⟩⟩

theorem Apart.of_cons {next : List UnitText} (h : Apart (name :: place) (name :: next)) :
    Apart place next :=
  ⟨fun hp => h.1 (List.cons_prefix_cons.mpr ⟨rfl, hp⟩), fun hp => h.2 (List.cons_prefix_cons.mpr ⟨rfl, hp⟩)⟩

/-- An entry that is put in a directory is what is found under its name. -/
theorem find_put (name other : UnitText) (u : FileTree) (entries : Entries) (rest : List UnitText) :
    (dir (put name u entries)).find (other :: rest) =
      if other = name then u.find rest else (dir entries).find (other :: rest) := by
  by_cases h : other = name
  · rw [if_pos h, find, h, child?_put_self]
  · rw [if_neg h, find, child?_put_of_ne h, find]

/-- A graft changes nothing apart from its place. -/
theorem find_graft_of_apart {other : List UnitText} (h : t.find place = .ok v) (ha : Apart place other)
    (u : FileTree) : (graft u t place).find other = t.find other := by
  induction place generalizing t other with
  | nil => exact absurd List.nil_prefix ha.1
  | cons name place ih =>
    obtain ⟨entries, s, rfl, hc, hf⟩ := find_cons_eq_ok.mp h
    cases other with
    | nil => exact absurd List.nil_prefix ha.2
    | cons next other =>
      rw [graft_cons hc, find_put]
      split
      · next hn =>
        subst hn
        rw [ih hf ha.of_cons, find, hc]
      · rfl

/-- Nor does a directory that is made. -/
theorem find_makeDirs_of_apart {other : List UnitText} (h : t.makeDirs place = .ok t')
    (ha : Apart place other) : t'.find other = t.find other := by
  induction place generalizing t t' other with
  | nil => exact absurd List.nil_prefix ha.1
  | cons name place ih =>
    cases t with
    | file => cases h
    | dir entries =>
      obtain ⟨u, hu, h⟩ := exists_ok_of_bind h
      cases h
      cases other with
      | nil => exact absurd List.nil_prefix ha.2
      | cons next other =>
        rw [find_put]
        split
        · next hn =>
          subst hn
          have apart := ha.of_cons
          rw [ih hu apart, find]
          cases child? next entries with
          | some s => rfl
          | none =>
            -- below a new directory there is nothing
            cases other with
            | nil => exact absurd List.nil_prefix apart.2
            | cons => rfl
        · rfl

/-! ## Looking -/

/-- The entries of a directory can be listed, also with a closing slash. -/
theorem list_of_find {p : Path} (h : t.find p.segments = .ok (dir entries)) :
    t.list p = .ok (kinds entries) := by
  rw [list, named, h]

theorem list_of_text {p : Path} (h : t.standing p.segments = .text text) :
    ∃ fault, t.list p = .error fault := by
  rw [list, named, standing_eq_text.mp h]
  cases p.slash
  · exact ⟨_, rfl⟩
  · exact ⟨_, rfl⟩

theorem read_of_find {p : Path} (hs : p.slash = false) (h : t.find p.segments = .ok (file text)) :
    t.read p = .ok text :=
  read_eq_ok.mpr ⟨hs, standing_eq_text.mpr h⟩

theorem find_append_entry (h : t.find place = .ok (dir entries)) (hc : child? name entries = some u) :
    t.find (place ++ [name]) = .ok u := by
  rw [find_append h, find, hc]
  rfl

end FileTree

end IntLang
