import IntLang.Project.Create
import IntLang.Proofs.Files.Directories
import IntLang.Proofs.Project.Commands
import IntLang.Proofs.Project.Machines

/-!
# Projects in their own template

A project may lie in the directory that it is a copy of. Then the copy is part of what is copied, one
directory deeper each time, and only paths that are too long end it. Even so nothing changes but the
project.

* `FileTree.Grown`: what is new in a tree lies in one place, or on the way to it;
* `Command.Within`: a command leaves files behind that have grown so, and nothing else;
* `within_copyTemplate`: so does a copy, wherever the template lies;
* **`fails_copyTemplate`**: a directory cannot be copied into itself.
-/

namespace IntLang

namespace FileTree

variable {t t' u : FileTree} {place way : List UnitText} {p : Path}

/-- All that stands in a tree has a name. -/
def Named (t : FileTree) : Prop :=
  ∀ names, t.standing names ≠ .nothing → ∀ name ∈ names, Path.IsName name

theorem Proper.named {entries : Entries} (h : Proper entries) : (FileTree.dir entries).Named :=
  fun _ hs => h.isName hs

/-- The entries of a directory are listed by their names. -/
theorem Named.isName_of_list {entries : List (UnitText × Bool)} (h : t.Named)
    (hl : t.list p = .ok entries) : ∀ e ∈ entries, Path.IsName e.1 := by
  have ⟨below, hf, hb⟩ : ∃ below, t.find p.segments = .ok (dir below) ∧ entries = kinds below := by
    unfold list named at hl
    rcases hf : t.find p.segments with fault | text | below
    · rw [hf] at hl
      cases hl
    · rw [hf] at hl
      cases hs : p.slash <;> rw [hs] at hl <;> cases hl
    · rw [hf] at hl
      exact ⟨below, rfl, (Except.ok.inj hl).symm⟩
  subst hb
  rintro _ hm
  obtain ⟨⟨name, s⟩, he, rfl⟩ := List.mem_map.mp hm
  refine h (p.segments ++ [name]) ?_ name (List.mem_append_right _ List.mem_cons_self)
  rw [standing_append hf, standing_dir_cons]
  cases hc : child? name below with
  | none => exact absurd hc (child?_ne_none he)
  | some u => cases u <;> exact Standing.noConfusion

/-- Nothing changes but what lies in a place, and directories on the way to it; what is new has a name. -/
structure Grown (place : List UnitText) (t t' : FileTree) : Prop where
  outside : ∀ names, ¬ place <+: names → t.GrownAt place t' names
  named : t.Named → t'.Named

namespace Grown

theorem refl (place : List UnitText) (t : FileTree) : Grown place t t :=
  ⟨fun names _ => .refl place t names, id⟩

theorem trans (h : Grown place t t') (h' : Grown place t' u) : Grown place t u :=
  ⟨fun names hn => (h.outside names hn).trans (h'.outside names hn), h'.named ∘ h.named⟩

theorem makeDirs {m : Machine} {fault : Option FileFault} (hp : place <+: way)
    (hn : ∀ name ∈ way, Path.IsName name) (h : m.makeDirs way t = (fault, t')) : Grown place t t' := by
  have grown := Machine.grownAt_makeDirs h
  constructor
  · intro names hout
    obtain same | ⟨hw, new⟩ := grown names
    · exact .inl same
    · exact .inr ⟨(List.prefix_or_prefix_of_prefix hw hp).resolve_right hout, new⟩
  · intro named names hs name hm
    obtain same | ⟨hw, -⟩ := grown names
    · exact named names (same ▸ hs) name hm
    · exact hn name (hw.subset hm)

theorem write {m : Machine} {text : String} (hp : place <+: p.segments)
    (hn : ∀ name ∈ p.segments, Path.IsName name) (h : m.write p text t = .ok t') : Grown place t t' := by
  have stands := Machine.standing_write h
  constructor
  · intro names hout
    refine .inl ?_
    rw [stands, if_neg]
    rintro rfl
    exact hout hp
  · intro named names hs
    rw [stands] at hs
    split at hs
    · next he => exact he ▸ hn
    · exact named names hs

end Grown

end FileTree

open FileTree

namespace Command

variable {α β : Type} {place : List UnitText} {w : Workspace}

/-- A command changes nothing but files, which grow in a place; where it fails, an operation on files does. -/
inductive Within (place : List UnitText) (w : Workspace) : EStateM.Result Failure Workspace α → Prop
  | ok {a : α} {t : FileTree} (h : Grown place w.files t) : Within place w (.ok a { w with files := t })
  | error {e : FileFault} {t : FileTree} (h : Grown place w.files t) :
    Within place w (.error (.file e) { w with files := t })

namespace Within

theorem pure (a : α) : Within place w ((Pure.pure a : Command α) w) := .ok (.refl place w.files)

theorem bind {x : Command α} {f : α → Command β} (hx : Within place w (x w))
    (hf : ∀ a t, x w = .ok a { w with files := t } → Grown place w.files t →
      Within place { w with files := t } (f a { w with files := t })) :
    Within place w ((x >>= f) w) := by
  rw [bind_eq]
  generalize x w = first at hx hf
  cases hx with
  | @ok a t h =>
    have rest := hf a t rfl h
    dsimp only
    generalize f a { w with files := t } = second at rest
    cases rest with
    | ok h' => exact .ok (h.trans h')
    | error h' => exact .error (h.trans h')
  | error h => exact .error h

theorem ask (operation : FileTree → Except FileFault α) : Within place w (Command.ask operation w) := by
  rw [ask_eq]
  cases operation w.files with
  | ok a => exact .ok (.refl place w.files)
  | error e => exact .error (.refl place w.files)

theorem makeDirs {way : List UnitText} (hp : place <+: way) (hn : ∀ name ∈ way, Path.IsName name) :
    Within place w (Command.makeDirs way w) := by
  rw [makeDirs_eq]
  rcases h : w.shell.machine.makeDirs way w.files with ⟨_ | e, t⟩
  · exact .ok (.makeDirs hp hn h)
  · exact .error (.makeDirs hp hn h)

theorem write {p : Path} {text : String} (hp : place <+: p.segments)
    (hn : ∀ name ∈ p.segments, Path.IsName name) : Within place w (Command.write p text w) := by
  rw [write_eq]
  cases h : w.shell.machine.write p text w.files with
  | ok t => exact .ok (.write hp hn h)
  | error e => exact .error (.refl place w.files)

end Within

end Command

namespace Project

open Command

variable {name : String} {copy : Path → Path → Command (List Path)} {place : List UnitText}
  {src dest : Path}

/-! ## What a copy changes -/

theorem isName_append {entry : UnitText} (hn : ∀ name ∈ dest.segments, Path.IsName name)
    (he : Path.IsName entry) : ∀ name ∈ dest.segments ++ [entry], Path.IsName name :=
  List.forall_mem_append.mpr ⟨hn, List.forall_mem_singleton.mpr he⟩

section Entries

variable (hp : place <+: dest.segments) (hn : ∀ name ∈ dest.segments, Path.IsName name)
  (hc : ∀ entry, Path.IsName entry → ∀ w, w.files.Named →
    Within place w (copy (src.join entry) (dest.join entry) w))

include hp hn hc

theorem within_copyEntry {w : Workspace} (hw : w.files.Named) {entry : UnitText × Bool}
    (he : Path.IsName entry.1) : Within place w (copyEntry name copy src dest entry w) := by
  obtain ⟨entry, _ | _⟩ := entry
  · rw [copyEntry]
    split
    · exact .pure []
    refine (Within.ask _).bind fun text t _ _ => ?_
    rw [Path.join_of_isName he]
    have written : Within place { w with files := t }
        (Command.write ⟨dest.segments ++ [entry], false⟩ (Template.fill name text) { w with files := t }) :=
      .write (hp.trans (List.prefix_append _ _)) (isName_append hn he)
    exact written.bind fun _ _ _ _ => .pure _
  · exact hc entry he w hw

theorem within_copyEntries {w : Workspace} (hw : w.files.Named) {entries : List (UnitText × Bool)}
    (he : ∀ e ∈ entries, Path.IsName e.1) :
    Within place w (copyEntries name copy src dest entries w) := by
  induction entries generalizing w with
  | nil => exact .pure []
  | cons entry entries ih =>
    obtain ⟨first, rest⟩ := List.forall_mem_cons.mp he
    rw [copyEntries]
    refine (within_copyEntry hp hn hc hw first).bind fun written t _ grown => ?_
    exact (ih (grown.named hw) rest).bind fun _ _ _ _ => .pure _

end Entries

/-- **A copy changes nothing but the place that it is made in**, wherever the template lies. -/
theorem within_copyTemplate (name : String) (depth : Nat) (hp : place <+: dest.segments)
    (hn : ∀ name ∈ dest.segments, Path.IsName name) {w : Workspace} (hw : w.files.Named) :
    Within place w (copyTemplate name depth src dest w) := by
  induction depth generalizing src dest w with
  | zero => exact .error (.refl place w.files)
  | succ depth ih =>
    rw [copyTemplate]
    refine (Within.makeDirs hp hn).bind fun _ t _ grown => ?_
    refine (Within.ask _).bind fun entries u hl grown' => ?_
    have named := grown'.named (grown.named hw)
    rw [ask_eq] at hl
    split at hl
    · next listed hr =>
      cases hl
      refine within_copyEntries hp hn (fun entry he w hw => ?_) named (named.isName_of_list hr)
      rw [Path.join_of_isName he, Path.join_of_isName he]
      exact ih (hp.trans (List.prefix_append _ _)) (isName_append hn he) hw
    · cases hl

/-! ## What cannot be copied -/

/-- A file has no entries. -/
theorem fails_copyTemplate_file (name : String) (depth : Nat) {w : Workspace} {text : String}
    (hs : w.files.standing src.segments = .text text) :
    ∃ e w', copyTemplate name depth src dest w = .error e w' := by
  cases depth with
  | zero => exact ⟨_, _, rfl⟩
  | succ depth =>
    rw [copyTemplate, bind_eq, makeDirs_eq]
    rcases hm : w.shell.machine.makeDirs dest.segments w.files with ⟨_ | e, t⟩
    · have still : t.standing src.segments = .text text := by
        obtain same | ⟨-, nothing, -⟩ := Machine.grownAt_makeDirs hm src.segments
        · exact same.trans hs
        · exact absurd (hs.symm.trans nothing) Standing.noConfusion
      obtain ⟨fault, hl⟩ := list_of_text still
      exact ⟨.file fault, { w with files := t }, by dsimp only; rw [bind_eq, ask_eq, hl]⟩
    · exact ⟨_, _, rfl⟩

/-- A directory is not copied if one of those in it cannot be. -/
theorem fails_copyEntries {entry : UnitText} {entries : List (UnitText × Bool)}
    (hm : (entry, true) ∈ entries)
    (hf : ∀ w, ∃ e w', copy (src.join entry) (dest.join entry) w = .error e w') (w : Workspace) :
    ∃ e w', copyEntries name copy src dest entries w = .error e w' := by
  induction entries generalizing w with
  | nil => cases hm
  | cons first entries ih =>
    rw [copyEntries, bind_eq]
    cases hx : copyEntry name copy src dest first w with
    | error e w' => exact ⟨e, w', rfl⟩
    | ok written w' =>
      obtain rfl | hm := List.mem_cons.mp hm
      · obtain ⟨e, w'', hf⟩ := hf w
        rw [copyEntry, hf] at hx
        cases hx
      · obtain ⟨e, w'', h⟩ := ih hm w'
        exact ⟨e, w'', by dsimp only; rw [bind_eq, h]⟩

/-- **A directory cannot be copied into itself**: the copy is among its entries. -/
theorem fails_copyTemplate (name : String) (depth : Nat) {next : UnitText} {rest : List UnitText}
    (hd : dest.segments = src.segments ++ next :: rest)
    (hn : ∀ name ∈ dest.segments, Path.IsName name) (w : Workspace) :
    ∃ e w', copyTemplate name depth src dest w = .error e w' := by
  induction depth generalizing src dest next rest w with
  | zero => exact ⟨_, _, rfl⟩
  | succ depth ih =>
    rw [copyTemplate, bind_eq, makeDirs_eq]
    rcases hm : w.shell.machine.makeDirs dest.segments w.files with ⟨_ | e, t⟩
    · have made := Machine.makeDirs_of_none hm
      have stands {names : List UnitText} (h : names <+: dest.segments) : t.standing names = .directory := by
        rw [standing_makeDirs made, if_pos h]
      have above : src.segments <+: dest.segments := hd ▸ List.prefix_append _ _
      have child : src.segments ++ [next] <+: dest.segments :=
        hd ▸ (List.prefix_append_right_inj _).mpr ⟨rest, rfl⟩
      obtain ⟨entries, hf⟩ := find_of_directory (stands above)
      have listed : (next, true) ∈ kinds entries := mem_kinds (by
        rw [← standing_append hf]
        exact stands child)
      have isName : Path.IsName next :=
        hn next (child.subset (List.mem_append_right _ List.mem_cons_self))
      dsimp only
      rw [bind_eq, ask_eq, list_of_find hf]
      refine fails_copyEntries listed (fun w => ?_) _
      rw [Path.join_of_isName isName, Path.join_of_isName isName]
      -- one directory deeper, and the copy is still in what is copied
      cases rest with
      | nil =>
        have deeper : dest.segments ++ [next] = (src.segments ++ [next]) ++ next :: [] := by rw [hd]
        exact ih deeper (isName_append hn isName) w
      | cons other rest =>
        have deeper : dest.segments ++ [next] =
            (src.segments ++ [next]) ++ other :: (rest ++ [next]) := by simp [hd]
        exact ih deeper (isName_append hn isName) w
    · exact ⟨_, _, rfl⟩

end Project

end IntLang
