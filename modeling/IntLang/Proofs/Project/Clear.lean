import IntLang.Proofs.Compilation.Results
import IntLang.Proofs.Files.Texts
import IntLang.Proofs.Project.Placeholders
import IntLang.Proofs.Project.Settings
import IntLang.Proofs.Text.Styles

/-!
# Texts without escape characters

Where no text that goes into a command holds an escape character, none that it shows does: paths,
messages, drawings and units are made of those texts and of the wording of the program.

* `Path.Clear`, `Config.Clear`: no name of a path holds the character;
* `Settings.ClearIn`: nor do the settings that a configuration file is decoded to;
* `Template.clear_fill`: nor does a text with its placeholders filled;
* `Failure.Clear`: nor does what is reported;
* `Machine.Clear`: nor do the processes of a machine leave one behind;
* **`clear_of_load`**: a project that is loaded, or the failure to load it.
-/

namespace IntLang

open Text (isControl_escape lacks_joined lacks_ofUnits notMem_units)

/-! ## Paths -/

namespace Path

/-- No name on the path holds an escape character. -/
def Clear (p : Path) : Prop := ∀ name ∈ p.segments, unit '\x1b' ∉ name

instance (p : Path) : Decidable p.Clear := inferInstanceAs (Decidable (∀ name ∈ p.segments, _))

variable {p : Path} {text : UnitText}

theorem notMem_of_mem_walk {above : List UnitText} (h : ∀ name ∈ above, unit '\x1b' ∉ name)
    (ht : unit '\x1b' ∉ text) : ∀ name ∈ walk above text, unit '\x1b' ∉ name :=
  forall_mem_walk h fun _ hp _ hm => ht (Text.subset_of_mem_runs hp hm)

namespace Clear

theorem join (h : p.Clear) (ht : unit '\x1b' ∉ text) : (p.join text).Clear := by
  unfold Path.join
  split
  · exact h
  · exact notMem_of_mem_walk h ht

theorem resolve (h : p.Clear) (ht : unit '\x1b' ∉ text) : (p.resolve text).Clear := by
  refine notMem_of_mem_walk ?_ ht
  split
  · exact List.forall_mem_nil _
  · exact h

theorem parent (h : p.Clear) : p.parent.Clear := fun name hm => h name (List.dropLast_subset _ hm)

theorem notMem_name (h : p.Clear) : unit '\x1b' ∉ p.name := by
  unfold name
  cases hl : p.segments.getLast? with
  | none => exact List.not_mem_nil
  | some last => exact h last (List.mem_of_getLast? hl)

theorem notMem_stem (h : p.Clear) (ending : UnitText) : unit '\x1b' ∉ p.stem ending := by
  have name := h.notMem_name
  obtain ⟨he, -⟩ | ⟨-, he⟩ := p.stem_eq ending
  · exact he ▸ name
  · rw [he, List.mem_append, not_or] at name
    exact name.1

theorem notMem_units (h : p.Clear) : unit '\x1b' ∉ p.units := by
  have names : unit '\x1b' ∉ [unit '/'].intercalate p.segments :=
    isControl_escape.composes.intercalate (by decide +kernel) h
  refine List.not_mem_append (List.not_mem_cons_of_ne_of_not_mem (by decide +kernel) names) ?_
  split
  · decide
  · exact List.not_mem_nil

theorem clear_text (h : p.Clear) : Text.Clear p.text := Text.lacks_ofUnits isControl_escape h.notMem_units

end Clear

end Path

/-! ## Configurations -/

/-- What is shown of the settings holds no escape character. -/
structure Settings.Clear (s : Settings) : Prop where
  entry : ∀ text ∈ s.entry, unit '\x1b' ∉ text
  out : ∀ text ∈ s.out, unit '\x1b' ∉ text

instance (s : Settings) : Decidable s.Clear :=
  decidable_of_iff ((∀ text ∈ s.entry, unit '\x1b' ∉ text) ∧ ∀ text ∈ s.out, unit '\x1b' ∉ text)
    ⟨fun ⟨he, ho⟩ => ⟨he, ho⟩, fun h => ⟨h.entry, h.out⟩⟩

/-- So it is for the settings of a directory, as they are read from its configuration file. -/
def Settings.ClearIn (files : FileTree) (dir : Path) : Prop :=
  ∀ s, Settings.load files dir = .ok s → s.Clear

instance (files : FileTree) (dir : Path) : Decidable (Settings.ClearIn files dir) :=
  decidable_of_iff (∀ s ∈ (Settings.load files dir).toOption, s.Clear) <| by
    unfold Settings.ClearIn
    cases Settings.load files dir <;> simp [Except.toOption]

namespace Config

structure Clear (c : Config) : Prop where
  entry : c.entry.Clear
  out : c.out.Clear
  name : unit '\x1b' ∉ c.name

variable {c : Config}

theorem Clear.code (h : c.Clear) : c.job.artifacts.code.Clear :=
  h.out.join (List.not_mem_append h.name (by decide +kernel))

theorem Clear.executable (h : c.Clear) : c.job.artifacts.executable.Clear := h.out.join h.name

theorem notMem_getD {o : Option UnitText} {text : UnitText} (ho : ∀ text ∈ o, unit '\x1b' ∉ text)
    (ht : unit '\x1b' ∉ text) : unit '\x1b' ∉ o.getD text := by
  cases o with
  | none => exact ht
  | some value => exact ho value rfl

theorem clear_ofSettings {settings : Settings} {dir : Path} {file : Option String}
    (hs : settings.Clear) (hd : dir.Clear) (hf : ∀ text ∈ file, Text.Clear text) :
    (ofSettings settings dir file).Clear := by
  have given : ∀ text ∈ (file.filter (· ≠ "")).map Text.units, unit '\x1b' ∉ text := by
    intro text hm
    obtain ⟨name, hn, rfl⟩ := Option.map_eq_some_iff.mp hm
    exact Text.notMem_units isControl_escape (hf name (Option.filter_eq_some_iff.mp hn).1)
  have entry : (ofSettings settings dir file).entry.Clear :=
    hd.resolve (notMem_getD given (notMem_getD hs.entry (by decide +kernel)))
  refine ⟨entry, ?_, entry.notMem_stem _⟩
  unfold ofSettings
  dsimp only
  split
  · exact entry.parent.join (by decide +kernel)
  · exact hd.resolve (notMem_getD hs.out (by decide +kernel))

theorem clear_of_load {files : FileTree} {dir : Path} {file : Option String}
    (hs : Settings.ClearIn files dir) (hd : dir.Clear)
    (hf : ∀ text ∈ file, Text.Clear text) (h : load files dir file = .ok c) : c.Clear := by
  rw [load] at h
  cases hl : Settings.load files dir with
  | error e =>
    rw [hl] at h
    cases h
  | ok settings =>
    rw [hl] at h
    cases h
    exact clear_ofSettings (hs settings hl) hd hf

end Config

/-! ## Templates -/

namespace Template

theorem clear_of_meaning? {name word text : String} (hn : Text.Clear name)
    (h : meaning? name word = some text) : Text.Clear text := by
  have all : ∀ entry ∈ builtins, Text.Clear entry.2 := by
    refine List.forall_mem_append.mpr ⟨by decide +kernel, List.forall_mem_map.mpr fun word hw => ?_⟩
    have words := (show ∀ word ∈ _, Text.Printable word by decide +kernel) word hw
    exact isControl_escape.quoted words.clear (by decide +kernel) (by decide +kernel)
  obtain h | ⟨-, h⟩ := meaning?_eq_some h
  · unfold named? at h
    split at h
    · cases h
      exact hn
    · cases h
  · obtain ⟨front, rest, he, -⟩ := List.lookup_eq_some_iff.mp h
    exact all (word, text) (he ▸ List.mem_append_right front List.mem_cons_self)

/-- **Placeholders bring in no escape character.** -/
theorem clear_fill {name text : String} (hn : Text.Clear name) (ht : Text.Clear text) :
    Text.Clear (fill name text) := by
  refine Text.lacks_ofList ?_
  have all (s : List Char) : ∀ skip, '\x1b' ∉ s → '\x1b' ∉ fillChars name skip s := by
    induction s with
    | nil => exact fun _ h => h
    | cons c s ih =>
      intro skip h
      rw [List.mem_cons, not_or] at h
      cases skip with
      | succ skip => exact ih skip h.2
      | zero =>
        have here := List.not_mem_cons_of_ne_of_not_mem h.1 (ih 0 h.2)
        rw [fillChars]
        split
        · exact here
        · next word _ =>
          split
          · exact here
          · next text hm =>
            exact List.not_mem_append (clear_of_meaning? hn hm) (ih _ h.2)
  exact all text.toList 0 ht

end Template

/-! ## Failures -/

/-- What is said of a configuration file brings no such character in, if the file holds none. -/
structure NoJson.ClearIn (words : NoJson → String) : Prop where
  unread : ∀ fault, Text.Clear (words (.unread fault))
  malformed : ∀ text, Text.Clear text → Text.Clear (words (.malformed text))

/-- What is reported of a failure holds no escape character, in whichever clear words. -/
def Failure.Clear : Failure → Prop
  | .config e => ∀ words, NoJson.ClearIn words → Text.Clear (e.message words)
  | .compile e => Text.Clear e.message
  | .tool e => Text.Clear e.message ∧ Text.Clear e.details
  | .file _ | .noRule _ => True

/-- What is wrong with a configuration file is said in the words of the program, or of the JSON reader. -/
theorem Config.clear_of_load_error {files : FileTree} {dir : Path} {file : Option String}
    {e : ConfigError} (ht : files.AllTexts Text.Clear) (h : load files dir file = .error e) :
    (Failure.config e).Clear := by
  intro words hw
  have invalid {cause : NoJson} (hc : Text.Clear (words cause)) :
      Text.Clear (ConfigError.message words (.invalidJson cause)) :=
    isControl_escape.quoted hc (by decide +kernel) (by decide +kernel)
  have given : ∀ key ∈ ["entry", "out", "cc"],
      Text.Printable (ConfigError.message (fun _ => "") (.notString key)) := by decide +kernel
  have object : Text.Printable (ConfigError.message (fun _ => "") .notObject) := by decide +kernel
  have list : Text.Printable (ConfigError.message (fun _ => "") (.notStrings "cflags")) := by
    decide +kernel
  cases (Settings.load_eq_error.mp (load_eq_error.mp h)).holds with
  | unreadable => exact invalid (hw.unread _)
  | notJson hr => exact invalid (hw.malformed _ (ht.read hr))
  | notObject => exact object.clear
  | notString hk => exact (given _ hk).clear
  | notStrings => exact list.clear

theorem ConfigError.clear_templateNotFound {templates : List Path} (ht : ∀ p ∈ templates, p.Clear) :
    (Failure.config (.templateNotFound templates)).Clear := by
  intro words hw
  have comma : Text.Clear ", " := by decide +kernel
  have places := lacks_joined comma (List.forall_mem_map.mpr fun p hp => (ht p hp).clear_text)
  exact isControl_escape.quoted places (by decide +kernel) (by decide +kernel)

theorem ConfigError.clear_folderExists {name : String} (hn : Text.Clear name) :
    (Failure.config (.folderExists name)).Clear :=
  fun _ _ => isControl_escape.quoted hn (by decide +kernel) (by decide +kernel)

/-- What a process said, and the name of the signal that ended it. -/
structure ProcessResult.Clear (r : ProcessResult) : Prop where
  out : Text.Clear r.out
  err : Text.Clear r.err
  signal : ∀ name ∈ r.signal, Text.Clear name

instance (r : ProcessResult) : Decidable r.Clear :=
  decidable_of_iff (Text.Clear r.out ∧ Text.Clear r.err ∧ ∀ name ∈ r.signal, Text.Clear name)
    ⟨fun ⟨ho, he, hs⟩ => ⟨ho, he, hs⟩, fun h => ⟨h.out, h.err, h.signal⟩⟩

/-- Processes leave no such text behind, and none is quoted. -/
structure Machine.Clear (m : Machine) : Prop where
  effect : ∀ call (result : ProcessResult) files, result.Clear → files.AllTexts Text.Clear →
    (m.effect call result files).AllTexts Text.Clear
  words : NoJson.ClearIn m.words

theorem Machine.clear_inert : inert.Clear :=
  ⟨fun _ _ _ _ h => h, fun _ => List.not_mem_nil, fun _ _ => List.not_mem_nil⟩

theorem ToolFailure.clear_compiler {code : Path} {err : String} (h : Text.Clear err) :
    (Failure.tool (.compiler code err)).Clear :=
  have said : Text.Clear "Error: Compilation failed." := by decide +kernel
  ⟨said, h⟩

theorem ToolFailure.clear_program {artifacts : Artifacts} {r : ProcessResult} (h : r.Clear) :
    (Failure.tool (.program artifacts r.exitCode r.signal r.err)).Clear := by
  have said : Text.Clear (program artifacts r.exitCode r.signal r.err).message := by
    unfold message
    dsimp only
    split
    · next name hn =>
      have signal := h.signal name (Option.filter_eq_some_iff.mp hn).1
      exact isControl_escape.quoted signal (by decide +kernel) (by decide +kernel)
    · refine isControl_escape.quoted ?_ (by decide +kernel) (by decide +kernel)
      split
      · exact (Text.printable_int _).clear
      · exact Text.Printable.clear (by decide +kernel)
  exact ⟨said, h.err⟩

namespace Project

variable {files : FileTree} {dir : Path} {file : Option String}

/-- **What is shown of a project that is loaded**, or of the failure to load it. -/
theorem clear_of_load (ht : files.AllTexts Text.Clear)
    (hs : Settings.ClearIn files dir) (hd : dir.Clear)
    (hf : ∀ text ∈ file, Text.Clear text) :
    match load files dir file with
    | .ok (config, compilation) =>
      config.Clear ∧ Text.Clear compilation.treeText ∧ Text.Clear compilation.codeText
    | .error e => e.Clear := by
  cases hl : load files dir file with
  | ok project =>
    obtain ⟨hc, source, hr, hcomp⟩ := load_eq_ok.mp hl
    obtain ⟨tree, code⟩ := notMem_of_compile isControl_escape (by decide)
      (notMem_units isControl_escape (ht.read hr)) hcomp
    exact ⟨Config.clear_of_load hs hd hf hc, lacks_ofUnits isControl_escape tree,
      lacks_ofUnits isControl_escape code⟩
  | error e =>
    cases loadFails_iff.mpr hl with
    | settings h => exact Config.clear_of_load_error ht h
    | missing hc h =>
      have path := (Config.clear_of_load hs hd hf hc).entry.clear_text
      exact fun _ _ => (show Text.Clear "source file not found: " by decide +kernel).append path
    | unreadable => trivial
    | refused hc hr hcomp =>
      exact lacks_message_of_compile isControl_escape (notMem_units isControl_escape (ht.read hr)) hcomp

end Project

end IntLang
