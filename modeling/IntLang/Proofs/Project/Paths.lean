import IntLang.Proofs.Files.Names
import IntLang.Project.Build
import Mathlib.Control.Monad.Basic

/-!
# The paths of a project

A build reads an entry, writes a C text and has an executable compiled from it; a run keeps a result
beside them. The C text has a path of its own. The others are made of names that the user chooses, and
can meet.

* `Config.Placed`: what holds of the paths of every configuration that is loaded;
* `Config.Separation`: which of the four paths are equal, and when;
* **`Placed.separation`**: that is so of every configuration that is loaded.
-/

namespace IntLang

namespace Config

/-- Where a run keeps what the program printed. -/
def result (c : Config) : Path := c.out.join "result.txt"

/-- The source, the C text, the executable and the result. -/
def paths (c : Config) : List Path :=
  [c.entry, c.job.artifacts.code, c.job.artifacts.executable, c.result]

/-! ## Configurations that are loaded -/

/-- The entry is a normal path that the name is made of. It is written without a closing slash, and so
is the output directory. -/
structure Placed (c : Config) : Prop where
  entry : c.entry.Normal
  entrySlash : c.entry.slash = false
  outSlash : c.out.slash = false
  name : c.name = c.entry.stem ".mc"

theorem placed_of_load {files : FileTree} {cwd : UnitText} {file : Option String} {c : Config}
    (h : load files (.ofText cwd) file = .ok c) : c.Placed := by
  unfold load at h
  cases hs : Settings.load files (.ofText cwd) with
  | error e => rw [hs] at h; cases h
  | ok settings =>
    rw [hs] at h
    cases h
    refine ⟨Path.normal_resolve (Path.normal_ofText cwd) _, rfl, ?_, rfl⟩
    unfold ofSettings
    dsimp only
    split
    · rw [Path.join_of_isName ⟨by decide, by decide, by decide, by decide⟩]
    · rfl

theorem isName_result : Path.IsName (Text.units "result.txt") :=
  ⟨by decide, by decide, by decide, by decide⟩

namespace Placed

variable {c : Config}

theorem noSlash (h : c.Placed) : unit '/' ∉ c.name := by
  have hn := h.entry.noSlash_name
  rw [h.name]
  obtain ⟨hs, -⟩ | ⟨-, hs⟩ := c.entry.stem_eq ".mc"
  · rwa [hs]
  · rw [hs] at hn
    exact fun hm => hn (List.mem_append_left _ hm)

theorem isName_code (h : c.Placed) : Path.IsName (c.name ++ Text.units ".c") := by
  have hs : unit '/' ∉ c.name ++ Text.units ".c" :=
    List.not_mem_append h.noSlash (by decide)
  have hc : unit 'c' ∈ c.name ++ Text.units ".c" := List.mem_append_right _ (by decide)
  exact Path.isName_of_mem hs hc (by decide)

/-- No entry is called like its C text: what is cut off a name is another ending. -/
theorem name_ne (h : c.Placed) : c.entry.name ≠ c.name ++ Text.units ".c" := by
  intro he
  rw [h.name] at he
  obtain ⟨hs, -⟩ | ⟨-, hs⟩ := c.entry.stem_eq ".mc"
  · exact absurd (List.append_right_eq_self.mp (he.symm.trans hs.symm)) (by decide)
  · exact absurd (List.append_cancel_left (he.symm.trans hs)) (by decide)

theorem code_ne_entry (h : c.Placed) : c.job.artifacts.code ≠ c.entry := fun he =>
  h.name_ne ((Path.eq_join_iff h.isName_code h.entrySlash h.outSlash).mp he.symm).2

theorem code_ne_executable (h : c.Placed) : c.job.artifacts.code ≠ c.job.artifacts.executable := by
  intro he
  have he : c.out.join (c.name ++ Text.units ".c") = c.out.join c.name := he
  obtain ⟨-, hj⟩ | ⟨-, hj⟩ | hn := Path.join_cases h.outSlash h.noSlash
  · exact Path.join_ne_self h.isName_code (he.trans hj)
  · exact Path.join_ne_parent h.isName_code (he.trans hj)
  · exact absurd ((Path.join_inj h.isName_code hn).mp he) (by simp [Text.units, Text.charUnits])

theorem code_ne_result (h : c.Placed) : c.job.artifacts.code ≠ c.result := by
  intro he
  have hl := congrArg List.getLast? ((Path.join_inj h.isName_code isName_result).mp he)
  rw [List.getLast?_append] at hl
  cases hl

theorem entry_eq_result_iff (h : c.Placed) :
    c.entry = c.result ↔ c.out = c.entry.parent ∧ c.entry.name = Text.units "result.txt" :=
  Path.eq_join_iff isName_result h.entrySlash h.outSlash

theorem executable_eq_result_iff (h : c.Placed) :
    c.job.artifacts.executable = c.result ↔ c.name = Text.units "result.txt" := by
  change c.out.join c.name = c.out.join "result.txt" ↔ _
  obtain ⟨hn, hj⟩ | ⟨hn, hj⟩ | hn := Path.join_cases h.outSlash h.noSlash
  · rw [hj]
    refine iff_of_false (Path.join_ne_self isName_result).symm ?_
    obtain hn | hn := hn
    all_goals
      rw [hn]
      decide
  · rw [hj, hn]
    exact iff_of_false (Path.join_ne_parent isName_result).symm (by decide)
  · exact Path.join_inj hn isName_result

/-- An entry that keeps its whole name is the root, or has a proper name. -/
theorem isName_of_whole (h : c.Placed) (hw : c.name = c.entry.name) (hn : c.name ≠ []) :
    Path.IsName c.name := by
  rw [hw] at hn ⊢
  refine h.entry.isName_name fun hs => hn ?_
  rw [Path.name, hs]
  rfl

/-- Nothing is left of the name of the root only. -/
theorem entry_eq_root (h : c.Placed) (hn : c.name = []) : c.entry = .root := by
  rw [h.name] at hn
  obtain ⟨hs, -⟩ | ⟨hs, -⟩ := c.entry.stem_eq ".mc"
  · have hseg := h.entry.segments_eq_nil (hs.symm.trans hn)
    rw [Path.root, ← hseg, ← h.entrySlash]
  · exact absurd hn hs

theorem executable_eq_entry_iff (h : c.Placed) :
    c.job.artifacts.executable = c.entry ↔
      c.out = c.entry.parent ∧ c.name = c.entry.name ∨
        c.out = c.entry ∧ c.name = Text.units "." ∨
          c.out.parent = c.entry ∧ c.name = Text.units ".." := by
  change c.out.join c.name = c.entry ↔ _
  obtain ⟨hn | hn, hj⟩ | ⟨hn, hj⟩ | hn := Path.join_cases h.outSlash h.noSlash
  · rw [hj, hn, h.entry_eq_root hn]
    have hd : ([] : UnitText) ≠ Text.units "." ∧ ([] : UnitText) ≠ Text.units ".." := by decide
    simp [hd, Path.root, Path.parent, Path.name]
  · have hw : c.name ≠ c.entry.name := fun hw => (h.isName_of_whole hw (hn ▸ by decide)).ne_dot hn
    have hd : Text.units "." ≠ Text.units ".." := by decide
    rw [hn] at hw
    rw [hj]
    simp [hn, hw, hd]
  · have hw : c.name ≠ c.entry.name := fun hw => (h.isName_of_whole hw (hn ▸ by decide)).ne_dots hn
    have hd : Text.units ".." ≠ Text.units "." := by decide
    rw [hn] at hw
    rw [hj]
    simp [hn, hw, hd]
  · rw [eq_comm, Path.eq_join_iff hn h.entrySlash h.outSlash, @eq_comm _ c.entry.name]
    simp [hn.ne_dot, hn.ne_dots]

/-- An entry with the ending has it cut off, if there is something in front. -/
theorem name_of_ending (h : c.Placed) {front : UnitText} (hn : front ≠ [])
    (he : c.entry.name = front ++ Text.units ".mc") : c.name = front :=
  h.name.trans (Path.stem_of_suffix hn he)

end Placed

/-! ## Where the paths meet -/

/-- Which of the four paths of a project are equal, and when. -/
structure Separation (c : Config) : Prop where
  /-- The C text has a path of its own. -/
  code : c.job.artifacts.code ∉ [c.entry, c.job.artifacts.executable, c.result]
  entry_result : c.entry = c.result ↔
    c.out = c.entry.parent ∧ c.entry.name = Text.units "result.txt"
  executable_result : c.job.artifacts.executable = c.result ↔ c.name = Text.units "result.txt"
  /-- The ending is not cut off, or nothing but dots is left. -/
  executable_entry : c.job.artifacts.executable = c.entry ↔
    c.out = c.entry.parent ∧ c.name = c.entry.name ∨
      c.out = c.entry ∧ c.name = Text.units "." ∨
        c.out.parent = c.entry ∧ c.name = Text.units ".."
  /-- With the usual ending, four names are not to be used. -/
  apart : ∀ front, c.entry.name = front ++ Text.units ".mc" →
    front ∉ ["", ".", "..", "result.txt"].map Text.units → c.paths.Nodup

/-- **The C text has a path of its own, and the others meet in the cases named.** -/
theorem Placed.separation {c : Config} (h : c.Placed) : c.Separation := by
  have hc : c.job.artifacts.code ∉ [c.entry, c.job.artifacts.executable, c.result] := by
    simp [h.code_ne_entry, h.code_ne_executable, h.code_ne_result]
  refine ⟨hc, h.entry_eq_result_iff, h.executable_eq_result_iff, h.executable_eq_entry_iff, ?_⟩
  intro front he hf
  have hd : front ≠ [] ∧ front ≠ Text.units "." ∧ front ≠ Text.units ".." ∧
      front ≠ Text.units "result.txt" := by simpa using hf
  have hn := h.name_of_ending hd.1 he
  have entry_executable : c.entry ≠ c.job.artifacts.executable := by
    have hw : front ≠ front ++ Text.units ".mc" := fun hw =>
      absurd (List.append_right_eq_self.mp hw.symm) (by decide)
    rw [ne_comm, ne_eq, h.executable_eq_entry_iff, hn, he]
    simp [hd, hw]
  have entry_result : c.entry ≠ c.result := by
    rw [ne_eq, h.entry_eq_result_iff, he]
    rintro ⟨-, hl⟩
    have hl := congrArg List.getLast? hl
    rw [List.getLast?_append] at hl
    cases hl
  have executable_result : c.job.artifacts.executable ≠ c.result := by
    rw [ne_eq, h.executable_eq_result_iff, hn]
    exact hd.2.2.2
  simp [paths, entry_executable, entry_result, executable_result, h.code_ne_entry.symm,
    h.code_ne_executable, h.code_ne_result]

end Config

/-- The files of a directory `/w`. -/
def FileTree.directory (files : List (String × String)) : FileTree :=
  .dir [(Text.units "w", .dir (files.map fun (name, text) => (Text.units name, .file text)))]

end IntLang
