import IntLang.Project.Create
import IntLang.Proofs.Files.Directories
import IntLang.Proofs.Files.Parts
import IntLang.Proofs.Project.Commands
import IntLang.Proofs.Project.Machines

/-!
# Copying a template

A template is copied entry by entry. In a directory that is new nothing can stand in the way of an entry,
and a template that lies elsewhere stays as it is, so the copy is complete unless the machine refuses a
place. What was made until then is not taken back.

* `Template.copy`: the entries of a new project;
* `Machine.Cut`: what is left behind where a place is refused;
* **`makes_copyEntries`**: copying entry by entry puts that copy in the place of an empty directory.
-/

namespace IntLang

open FileTree

/-! ## Copies of templates -/

namespace Template

mutual

/-- What a new project has for an entry of its template. -/
def copyEntry (name : String) (entry : UnitText) : FileTree → Entries
  | .file text => if entry = keeper then [] else [(entry, .file (fill name text))]
  | .dir below => [(entry, .dir (copy name below))]

def copy (name : String) : Entries → Entries
  | [] => []
  | (entry, t) :: entries => copyEntry name entry t ++ copy name entries

end

variable {name : String} {entry : UnitText} {entries : Entries}

theorem copy_keeper (name text : String) (entries : Entries) :
    copy name ((keeper, .file text) :: entries) = copy name entries := rfl

theorem copy_file (h : entry ≠ keeper) (name text : String) (entries : Entries) :
    copy name ((entry, .file text) :: entries) = (entry, .file (fill name text)) :: copy name entries := by
  rw [copy, copyEntry, if_neg h, List.singleton_append]

theorem copy_dir (name : String) (entry : UnitText) (below entries : Entries) :
    copy name ((entry, .dir below) :: entries) = (entry, .dir (copy name below)) :: copy name entries :=
  rfl

/-- A name that is not in the template is not in its copy. -/
theorem child?_copy (h : Proper entries) (hc : child? entry entries = none) :
    child? entry (copy name entries) = none := by
  induction h with
  | nil => rfl
  | @file other text entries _ _ _ ih =>
    rw [child?] at hc
    split at hc
    · cases hc
    · next ho =>
      by_cases hk : other = keeper
      · rw [hk, copy_keeper, ih hc]
      · rw [copy_file hk, child?, if_neg ho, ih hc]
  | @dir other below entries _ _ _ _ _ ih =>
    rw [child?] at hc
    split at hc
    · cases hc
    · next ho => rw [copy_dir, child?, if_neg ho, ih hc]

theorem proper_copy (h : Proper entries) (name : String) : Proper (copy name entries) := by
  induction h with
  | nil => exact .nil
  | @file entry text entries hn hc h ih =>
    by_cases hk : entry = keeper
    · rw [hk, copy_keeper]
      exact ih
    · rw [copy_file hk]
      exact .file hn (child?_copy h hc) ih
  | @dir entry below entries hn hc hb h ihb ih => exact .dir hn (child?_copy h hc) ihb ih

end Template

/-- What stands in a new project for what stands in its template: directories as they are, and files
with their placeholders filled, but no keepers. -/
def Standing.filled (name : String) (place : List UnitText) : Standing → Standing
  | .nothing => .nothing
  | .directory => .directory
  | .text content =>
    if place.getLast? = some Template.keeper then .nothing else .text (Template.fill name content)

theorem Standing.filled_cons (name : String) (entry : UnitText) {place : List UnitText}
    (h : place ≠ []) (s : Standing) : s.filled name (entry :: place) = s.filled name place := by
  cases s with
  | text content => rw [filled, filled, List.getLast?_cons_of_ne_nil h]
  | _ => rfl

/-- **A new project has at every place what its template has there.** -/
theorem Template.standing_copy {entries : Entries} (h : Proper entries) (name : String)
    (place : List UnitText) :
    (dir (copy name entries)).standing place = ((dir entries).standing place).filled name place := by
  induction h generalizing place with
  | nil => cases place <;> rfl
  | @file entry text entries _ hc h ih =>
    cases place with
    | nil => rfl
    | cons other rest =>
      rw [standing_cons]
      by_cases ho : entry = other
      · subst ho
        rw [if_pos rfl]
        by_cases hk : entry = keeper
        · subst hk
          rw [copy_keeper, standing_of_no_child? (child?_copy h hc)]
          cases rest <;> rfl
        · rw [copy_file hk, standing_cons, if_pos rfl]
          cases rest with
          | nil => simp [standing, find, Standing.filled, hk]
          | cons => rfl
      · rw [if_neg ho, ← ih]
        by_cases hk : entry = keeper
        · rw [hk, copy_keeper]
        · rw [copy_file hk, standing_cons, if_neg ho]
  | @dir entry below entries _ hc hb h ihb ih =>
    cases place with
    | nil => rfl
    | cons other rest =>
      rw [standing_cons, copy_dir, standing_cons]
      split
      · rw [ihb]
        cases rest with
        | nil => rfl
        | cons next rest => rw [Standing.filled_cons name other (List.cons_ne_nil next rest)]
      · exact ih _

/-! ## Copies that are cut short -/

/-- A machine refuses one of the places of a whole tree, and a part of it is all that is made. -/
structure Machine.Cut (m : Machine) (before part whole : FileTree) : Prop where
  /-- All that was there is there still, -/
  old : before.Part part
  /-- and all that is new belongs to the whole. -/
  new : part.Part whole
  refused : ∃ names, m.refuses names = true ∧ part.standing names = .nothing ∧
    whole.standing names ≠ .nothing

namespace Machine

variable {m : Machine} {t t' u part whole : FileTree} {name : UnitText} {names place : List UnitText}
  {text : String} {done : Entries}

theorem Cut.mono (h : m.Cut t' part u) (ht : t.Part t') (hu : u.Part whole) : m.Cut t part whole := by
  obtain ⟨names, refused, missing, wanted⟩ := h.refused
  exact ⟨ht.trans h.old, h.new.trans hu, names, refused, missing, hu.ne_nothing wanted⟩

/-- A place in a directory that is refused cuts short all that is to stand there. -/
theorem cut_entry (hd : t.find place = .ok (dir done)) (hn : child? name done = none)
    (hr : m.refuses (place ++ [name]) = true) (u : FileTree) :
    m.Cut t t (graft (dir (done ++ [(name, u)])) t place) := by
  refine ⟨.refl t, part_graft hd (part_append _ _), place ++ [name], hr, ?_, ?_⟩
  · rw [standing_append hd, standing_of_no_child? hn]
  · rw [(standing_graft hd _).1, ← put_of_no_child? hn, standing_of_child? (child?_put_self _ _ _)]
    cases u <;> exact Standing.noConfusion

/-- A new file in a directory is written, or its place is refused. -/
theorem write_entry (hd : t.find place = .ok (dir done)) (hn : child? name done = none) (text : String) :
    let whole := graft (dir (done ++ [(name, file text)])) t place
    m.write ⟨place ++ [name], false⟩ text t = .ok whole ∨
      m.write ⟨place ++ [name], false⟩ text t = .error .refused ∧ m.Cut t t whole := by
  intro whole
  have written : t.write ⟨place ++ [name], false⟩ text = .ok whole := by
    rw [FileTree.write, writeAt_entry hd hn]
    rfl
  cases hr : m.refuses (place ++ [name]) with
  | false => exact .inl (write_eq_ok.mpr ⟨written, hr⟩)
  | true =>
    refine .inr ⟨?_, cut_entry hd hn hr _⟩
    rw [write, written]
    exact if_pos hr

/-- A new directory in another is made, or its place is refused. -/
theorem makeDirs_entry (hd : t.find place = .ok (dir done)) (hn : child? name done = none) :
    m.makeDirs (place ++ [name]) t = (none, graft (dir (done ++ [(name, empty)])) t place) ∨
      m.makeDirs (place ++ [name]) t = (some .refused, t) ∧ m.refuses (place ++ [name]) = true := by
  have made := FileTree.makeDirs_entry hd hn
  have steps := made_makeDirs m (place ++ [name]) t
  generalize m.makeDirs (place ++ [name]) t = result at steps
  cases steps with
  | whole h =>
    cases made.symm.trans h
    exact .inl rfl
  | blocked h => cases made.symm.trans h
  | @refused n _ part h barrier hp =>
    obtain ⟨hl, ⟨refused, missing⟩, -⟩ := barrier?_eq_some.mp barrier
    rw [List.length_append, List.length_singleton] at hl
    have stands : t.standing place = .directory := by rw [standing, hd]
    have above (k : Nat) (hk : k ≤ place.length) : (place ++ [name]).take k <+: place := by
      rw [List.take_append_of_le_length hk]
      exact List.take_prefix k place
    cases (makeDirs_of_directory (standing_above stands (above n (Nat.le_of_lt_succ hl)))).symm.trans hp
    -- the only place on the way that is missing is the last one
    obtain hn | hn := Nat.lt_or_ge n place.length
    · rw [standing_above stands (above (n + 1) hn)] at missing
      cases missing
    · rw [List.take_of_length_le (by rw [List.length_append, List.length_singleton]; omega)] at refused
      exact .inr ⟨rfl, refused⟩

/-- Directories that there is room for are made, or one of them is refused. -/
theorem makeDirs_of_ok {made : FileTree} (hm : t.makeDirs names = .ok made) :
    m.makeDirs names t = (none, made) ∨
      ∃ part, m.makeDirs names t = (some .refused, part) ∧ m.Cut t part made := by
  have steps := made_makeDirs m names t
  generalize m.makeDirs names t = result at steps
  cases steps with
  | whole h =>
    cases hm.symm.trans h
    exact .inl rfl
  | blocked h => cases hm.symm.trans h
  | @refused n _ part h barrier hp =>
    cases hm.symm.trans h
    obtain ⟨hl, ⟨refused, missing⟩, -⟩ := barrier?_eq_some.mp barrier
    refine .inr ⟨part, rfl, part_of_grown (FileTree.grownAt_makeDirs hp),
      part_makeDirs h (List.take_prefix n names) hp, names.take (n + 1), refused, ?_, ?_⟩
    · rw [standing_makeDirs hp, if_neg, missing]
      intro hpre
      have hl' := hpre.length_le
      rw [List.length_take, List.length_take] at hl'
      omega
    · rw [standing_makeDirs h, if_pos (List.take_prefix _ _)]
      exact Standing.noConfusion

end Machine

/-! ## Copying entry by entry -/

namespace Command

/-- The command makes a whole tree of the files and gives a result, or is refused half way. -/
inductive Makes {α : Type} (w : Workspace) (a : α) (whole : FileTree) :
    EStateM.Result Failure Workspace α → Prop
  | whole : Makes w a whole (.ok a { w with files := whole })
  | refused {part : FileTree} (h : w.shell.machine.Cut w.files part whole) :
    Makes w a whole (.error (.file .refused) { w with files := part })

namespace Makes

variable {α β : Type} {w : Workspace} {a : α} {b : β} {made whole : FileTree}

/-- What is made first is part of the whole, and what comes behind makes the rest. -/
theorem bind {x : Command α} {f : α → Command β} (hx : Makes w a made (x w))
    (hf : Makes { w with files := made } b whole (f a { w with files := made }))
    (ho : w.files.Part made) (hw : made.Part whole) : Makes w b whole ((x >>= f) w) := by
  rw [bind_eq]
  generalize x w = first at hx
  cases hx with
  | whole =>
    dsimp only
    generalize f a { w with files := made } = second at hf
    cases hf with
    | whole => exact .whole
    | refused h => exact .refused (h.mono ho (.refl _))
  | refused h => exact .refused (h.mono (.refl _) hw)

theorem map {x : Command α} (hx : Makes w a whole (x w)) (g : α → β) :
    Makes w (g a) whole ((do return g (← x) : Command β) w) := by
  rw [bind_eq]
  generalize x w = first at hx
  cases hx with
  | whole => exact .whole
  | refused h => exact .refused h

end Makes

end Command

namespace Project

open Command

variable {name : String} {src dest : Path} {entries all done : Entries} {depth : Nat} {w w' : Workspace}

/-- The first entry of a directory is not among the others. -/
theorem child?_cons_of_ne_none {entry other : UnitText} (hc : child? entry entries = none)
    (t : FileTree) (ho : child? other entries ≠ none) :
    entry ≠ other ∧ child? other ((entry, t) :: entries) ≠ none := by
  have hne : entry ≠ other := fun h => ho (h ▸ hc)
  exact ⟨hne, by rwa [child?, if_neg hne]⟩

/-- So what the entries that are left have in common with the whole directory, they have without the first. -/
theorem child?_of_cons {entry : UnitText} {t : FileTree} (hc : child? entry entries = none)
    (hall : ∀ other, child? other ((entry, t) :: entries) ≠ none →
      child? other all = child? other ((entry, t) :: entries)) (other : UnitText)
    (ho : child? other entries ≠ none) : child? other all = child? other entries := by
  obtain ⟨hne, some⟩ := child?_cons_of_ne_none hc t ho
  rw [hall other some, child?, if_neg hne]

theorem child?_first {entry : UnitText} {t : FileTree}
    (hall : ∀ other, child? other ((entry, t) :: entries) ≠ none →
      child? other all = child? other ((entry, t) :: entries))
    (hnew : ∀ other, child? other ((entry, t) :: entries) ≠ none → child? other done = none) :
    child? entry all = some t ∧ child? entry done = none := by
  have first : child? entry ((entry, t) :: entries) = some t := by rw [child?, if_pos rfl]
  have found := first ▸ Option.some_ne_none t
  exact ⟨(hall entry found).trans first, hnew entry found⟩

/-- A directory of a template, and the directory of its copy with what is there already: neither lies in the
other, and paths of the depth that is left are too long. -/
structure Copying (src dest : Path) (all done : Entries) (depth : Nat) (w : Workspace) : Prop where
  template : w.files.find src.segments = .ok (dir all)
  copy : w.files.find dest.segments = .ok (dir done)
  apart : Apart dest.segments src.segments
  deep : w.shell.machine.deepest < dest.segments.length + 1 + depth

/-- What is put in the copy leaves the template alone. -/
theorem Copying.put (h : Copying src dest all done depth w) (more : Entries) :
    Copying src dest all more depth { w with files := graft (dir more) w.files dest.segments } :=
  ⟨(find_graft_of_apart h.copy h.apart _).trans h.template, find_graft h.copy _, h.apart, h.deep⟩

section Entry

variable {entry : UnitText} (h : Copying src dest all done depth w) (hn : Path.IsName entry)
  (hf : child? entry done = none)

include h hn hf

theorem makes_copyEntry_file (name : String) {text : String} (ht : child? entry all = some (file text))
    (hk : entry ≠ Template.keeper) (copy : Path → Path → Command (List Path)) :
    Makes w [⟨dest.segments ++ [entry], false⟩]
      (graft (dir (done ++ [(entry, file (Template.fill name text))])) w.files dest.segments)
      (copyEntry name copy src dest (entry, false) w) := by
  have source : w.files.read ⟨src.segments ++ [entry], false⟩ = .ok text :=
    read_of_find rfl (find_append_entry h.template ht)
  rw [copyEntry, if_neg hk, Path.join_of_isName hn, Path.join_of_isName hn, bind_eq, ask_eq, source]
  dsimp only
  rw [bind_eq, write_eq]
  obtain written | ⟨refused, cut⟩ := Machine.write_entry h.copy hf (Template.fill name text)
  · rw [written]
    exact .whole
  · rw [refused]
    exact .refused cut

/-- A directory is made first, and is empty when it is filled. It is not made where the paths in it are too
long. -/
theorem makes_copyTemplate_dir {below copied : Entries} {written : List Path}
    (ht : child? entry all = some (dir below))
    (hb : ∀ {depth : Nat} {w : Workspace},
      Copying ⟨src.segments ++ [entry], false⟩ ⟨dest.segments ++ [entry], false⟩ below [] depth w →
      Makes w written (graft (dir copied) w.files (dest.segments ++ [entry]))
        (copyEntries name (copyTemplate name depth) ⟨src.segments ++ [entry], false⟩
          ⟨dest.segments ++ [entry], false⟩ (kinds below) w)) :
    Makes w written (graft (dir (done ++ [(entry, dir copied)])) w.files dest.segments)
      (copyEntry name (copyTemplate name depth) src dest (entry, true) w) := by
  rw [copyEntry, Path.join_of_isName hn, Path.join_of_isName hn]
  have deep := h.deep
  cases depth with
  | zero =>
    refine .refused (Machine.cut_entry h.copy hf ?_ _)
    rw [Machine.refuses, Bool.or_eq_true, decide_eq_true_iff, List.length_append, List.length_singleton]
    exact .inl deep
  | succ depth =>
    have made : Makes w () (graft (dir (done ++ [(entry, empty)])) w.files dest.segments)
        (Command.makeDirs (dest.segments ++ [entry]) w) := by
      rw [makeDirs_eq]
      obtain made | ⟨refused, hr⟩ := Machine.makeDirs_entry (m := w.shell.machine) h.copy hf
      · rw [made]
        exact .whole
      · rw [refused]
        exact .refused (Machine.cut_entry h.copy hf hr _)
    have put := h.put (done ++ [(entry, empty)])
    have source := find_append_entry put.template ht
    have new : (graft (dir (done ++ [(entry, empty)])) w.files dest.segments).find
        (dest.segments ++ [entry]) = .ok (dir []) := by
      refine find_append_entry put.copy ?_
      rw [← put_of_no_child? hf, child?_put_self]
      rfl
    have below : w.shell.machine.deepest < (dest.segments ++ [entry]).length + 1 + depth := by
      rw [List.length_append, List.length_singleton]
      omega
    have filled := hb ⟨source, new, h.apart.append _ _, below⟩
    have larger := part_graft new (part_append [] copied)
    rw [List.nil_append] at larger
    dsimp only at filled
    rw [graft_entry h.copy hf] at filled larger
    rw [copyTemplate]
    refine made.bind ?_ (part_graft h.copy (part_append _ _)) larger
    rw [bind_eq, ask_eq, list_of_find source]
    exact filled

end Entry

/-- An entry that was copied, and those behind it. -/
theorem makes_copyEntries_cons {entry : UnitText} {t u : FileTree} {written more : List Path}
    (h : Copying src dest all done depth w) (hc : child? entry entries = none)
    (hnew : ∀ other, child? other ((entry, t) :: entries) ≠ none → child? other done = none)
    (he : Makes w written (graft (dir (done ++ [(entry, u)])) w.files dest.segments)
      (copyEntry name (copyTemplate name depth) src dest (entry, t.isDirectory) w))
    (ih : ∀ {done : Entries} {w : Workspace}, Copying src dest all done depth w →
      (∀ other, child? other entries ≠ none → child? other done = none) →
      Makes w more (graft (dir (done ++ Template.copy name entries)) w.files dest.segments)
        (copyEntries name (copyTemplate name depth) src dest (kinds entries) w)) :
    Makes w (written ++ more)
      (graft (dir (done ++ (entry, u) :: Template.copy name entries)) w.files dest.segments)
      (copyEntries name (copyTemplate name depth) src dest (kinds ((entry, t) :: entries)) w) := by
  have new (other : UnitText) (ho : child? other entries ≠ none) :
      child? other (done ++ [(entry, u)]) = none := by
    obtain ⟨hne, ho⟩ := child?_cons_of_ne_none hc t ho
    rw [child?_append, hnew other ho, child?, if_neg hne]
    rfl
  have rest := ih (h.put (done ++ [(entry, u)])) new
  have larger :=
    graft_part_graft h.copy (part_append (done ++ [(entry, u)]) (Template.copy name entries))
  dsimp only at rest
  rw [graft_graft h.copy] at rest
  rw [List.append_assoc, List.singleton_append] at rest larger
  exact he.bind (rest.map (written ++ ·)) (part_graft h.copy (part_append _ _)) larger

/-- **Copying entry by entry** puts the whole copy behind the entries already there, or is refused. -/
theorem makes_copyEntries (hp : Proper entries) (h : Copying src dest all done depth w)
    (hall : ∀ other, child? other entries ≠ none → child? other all = child? other entries)
    (hnew : ∀ other, child? other entries ≠ none → child? other done = none) :
    Makes w ((places (Template.copy name entries)).map fun place => ⟨dest.segments ++ place, false⟩)
      (graft (dir (done ++ Template.copy name entries)) w.files dest.segments)
      (copyEntries name (copyTemplate name depth) src dest (kinds entries) w) := by
  -- on the entries that are left, for every directory and whatever was copied there before
  induction hp generalizing src dest all done depth w with
  | nil =>
    rw [Template.copy, List.append_nil, graft_self h.copy]
    exact .whole
  | @file entry text entries hn hc hp ih =>
    have rest (other : UnitText) (ho : child? other entries ≠ none) :=
      child?_cons_of_ne_none hc (file text) ho
    have left := child?_of_cons hc hall
    by_cases hk : entry = Template.keeper
    · have he : copyEntry name (copyTemplate name depth) src dest (entry, false) w = .ok [] w := by
        rw [copyEntry, if_pos hk]
        rfl
      have copied := (ih h left fun other ho => hnew other (rest other ho).2).map ([] ++ ·)
      have step : kinds ((entry, file text) :: entries) = (entry, false) :: kinds entries := rfl
      rw [step, copyEntries, bind_eq, he, hk, Template.copy_keeper]
      exact copied
    · obtain ⟨first, new⟩ := child?_first hall hnew
      have he := makes_copyEntry_file h hn new name first hk (copyTemplate name depth)
      rw [Template.copy_file hk, places_file]
      exact makes_copyEntries_cons h hc hnew he fun h hnew => ih h left hnew
  | @dir entry below entries hn hc hb hp ihb ih =>
    obtain ⟨first, new⟩ := child?_first hall hnew
    have filled {depth : Nat} {w : Workspace} (h : Copying ⟨src.segments ++ [entry], false⟩
        ⟨dest.segments ++ [entry], false⟩ below [] depth w) :
        Makes w ((places (Template.copy name below)).map fun place =>
            ⟨dest.segments ++ [entry] ++ place, false⟩)
          (graft (dir (Template.copy name below)) w.files (dest.segments ++ [entry]))
          (copyEntries name (copyTemplate name depth) ⟨src.segments ++ [entry], false⟩
            ⟨dest.segments ++ [entry], false⟩ (kinds below) w) :=
      ihb h (fun _ _ => rfl) fun _ _ => rfl
    have he := makes_copyTemplate_dir h hn new first filled
    have copied := makes_copyEntries_cons h hc hnew he fun h hnew => ih h (child?_of_cons hc hall) hnew
    rw [Template.copy_dir, places_dir, List.map_append, List.map_map]
    simp only [List.append_assoc, List.singleton_append] at copied
    exact copied

end Project

end IntLang
