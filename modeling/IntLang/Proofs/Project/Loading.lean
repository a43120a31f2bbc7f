import IntLang.Proofs.Compilation.Accepted
import IntLang.Proofs.Project.Kept

/-!
# Loading comes first

All commands on a project load it first, and loading only looks at files.

* `LoadFails`: the reasons why a project cannot be loaded; `loadFails_iff`: there are no others;
* `tree_eq`, `emit_eq`: what the two commands do that only print;
* `build_of_loadFails`, `run_of_loadFails`: a project that cannot be loaded is left as it is.
-/

namespace IntLang

open Command

/-- The files are the same, and no process was started. -/
structure Workspace.Still (w w' : Workspace) : Prop where
  files : w'.files = w.files
  shell : w'.shell = w.shell

/-- In addition, nothing was printed on the first stream. -/
structure Workspace.Untouched (w w' : Workspace) : Prop extends Workspace.Still w w' where
  out : w'.console.out = w.console.out

namespace Project

variable {files : FileTree} {dir : Path} {file : Option String} {w : Workspace} {e : Failure}
  {config : Config} {compilation : Compilation}

/-! ## Why a project cannot be loaded -/

/-- The configuration is wrong, the source is missing, it cannot be read, or it is refused. -/
inductive LoadFails (files : FileTree) (dir : Path) (file : Option String) : Failure → Prop
  | settings {e : ConfigError} (h : Config.load files dir file = .error e) :
    LoadFails files dir file (.config e)
  | missing {config : Config} (hc : Config.load files dir file = .ok config)
    (h : files.exists config.entry = false) :
    LoadFails files dir file (.config (.sourceNotFound config.entry))
  | unreadable {config : Config} {e : FileFault} (hc : Config.load files dir file = .ok config)
    (hx : files.exists config.entry = true) (h : files.read config.entry = .error e) :
    LoadFails files dir file (.file e)
  | refused {config : Config} {source : String} {e : CompileError}
    (hc : Config.load files dir file = .ok config) (hr : files.read config.entry = .ok source)
    (h : (compile (Text.units source) .empty).1 = .error (.source e)) : LoadFails files dir file (.compile e)

theorem load_of_config (hc : Config.load files dir file = .ok config) :
    load files dir file =
      if files.exists config.entry = true then
        match files.read config.entry with
        | .error e => .error (.file e)
        | .ok source =>
          match (compile (Text.units source) .empty).1 with
          | .error e => .error (.ofCompile e)
          | .ok compilation => .ok (config, compilation)
      else .error (.config (.sourceNotFound config.entry)) := by
  unfold load
  rw [hc]
  simp only [Except.mapError, bind, Except.bind]
  cases files.exists config.entry with
  | false => rfl
  | true =>
    cases files.read config.entry with
    | error e => rfl
    | ok source =>
      simp only [if_true, pure, Except.pure]
      cases (compile (Text.units source) .empty).1 <;> rfl

theorem exists_of_read {t : FileTree} {p : Path} {text : String} (h : t.read p = .ok text) :
    t.exists p = true := by
  obtain ⟨hs, ht⟩ := FileTree.read_eq_ok.mp h
  rw [FileTree.exists_iff hs, ht]
  exact nofun

/-- **A project is loaded if it is configured, and its source can be read and is accepted.** -/
theorem load_eq_ok : load files dir file = .ok (config, compilation) ↔
    Config.load files dir file = .ok config ∧
      ∃ source, files.read config.entry = .ok source ∧ (compile (Text.units source) .empty).1 = .ok compilation := by
  constructor
  · intro h
    have hc := config_of_load h
    rw [load_of_config hc] at h
    split at h
    · split at h
      · cases h
      · next source hr =>
        split at h
        · cases h
        · next hcomp =>
          cases h
          exact ⟨hc, source, hr, hcomp⟩
    · cases h
  · rintro ⟨hc, source, hr, hcomp⟩
    rw [load_of_config hc, if_pos (exists_of_read hr), hr]
    simp only [hcomp]

/-- **There are no other reasons why a project cannot be loaded.** -/
theorem loadFails_iff : LoadFails files dir file e ↔ load files dir file = .error e := by
  constructor
  · intro h
    cases h with
    | settings h =>
      rw [load, h]
      rfl
    | missing hc h =>
      rw [load_of_config hc, h]
      rfl
    | unreadable hc hx h =>
      rw [load_of_config hc, if_pos hx, h]
    | refused hc hr h =>
      rw [load_of_config hc, if_pos (exists_of_read hr), hr]
      simp only [h]
      rfl
  · intro h
    cases hc : Config.load files dir file with
    | error e =>
      rw [load, hc] at h
      cases h
      exact .settings hc
    | ok config =>
      rw [load_of_config hc] at h
      split at h
      · next hx =>
        split at h
        · next hr =>
          cases h
          exact .unreadable hc hx hr
        · next source hr =>
          split at h
          · next failure hcomp =>
            cases h
            cases failure with
            | source e => exact .refused hc hr hcomp
            | noRule e => exact absurd hcomp (compile_ne_noRule source .empty e)
          · cases h
      · next hx =>
        cases h
        exact .missing hc (Bool.eq_false_iff.mpr hx)

/-! ## What stands behind loading -/

/-- The console with a tree on it. -/
def withTree (tree : String) (c : Console) : Console :=
  let c := c.heading "VISUAL PARSE TREE"
  (if tree = "" then c else c.line tree).rule

theorem printTree_eq (tree : String) (w : Workspace) :
    printTree tree w = .ok () { w with console := withTree tree w.console } := by
  unfold printTree withTree
  split <;> rfl

theorem tree_eq (dir : Path) (file : Option String) (w : Workspace) :
    tree dir file w =
      match load w.files dir file with
      | .ok (_, compilation) => .ok () { w with console := withTree compilation.treeText w.console }
      | .error e => .error e w := by
  unfold tree
  rw [loaded_bind_eq]
  cases load w.files dir file with
  | error e => rfl
  | ok project => exact printTree_eq project.2.treeText w

theorem emit_eq (dir : Path) (file : Option String) (w : Workspace) :
    emit dir file w =
      match load w.files dir file with
      | .ok (_, compilation) => .ok () { w with console := w.console.write compilation.codeText }
      | .error e => .error e w := by
  unfold emit
  rw [loaded_bind_eq]
  cases load w.files dir file <;> rfl

theorem still_tree (dir : Path) (file : Option String) (w : Workspace) :
    w.Still ((tree dir file).after w) := by
  rw [after, tree_eq]
  cases load w.files dir file <;> exact ⟨rfl, rfl⟩

theorem still_emit (dir : Path) (file : Option String) (w : Workspace) :
    w.Still ((emit dir file).after w) := by
  rw [after, emit_eq]
  cases load w.files dir file <;> exact ⟨rfl, rfl⟩

theorem build_of_loadFails (h : LoadFails w.files dir file e) : build dir file w = .error e w := by
  unfold build
  rw [loaded_bind_eq, loadFails_iff.mp h]

theorem run_of_loadFails (h : LoadFails w.files dir file e) : run dir file w = .error e w := by
  unfold run
  rw [loaded_bind_eq, loadFails_iff.mp h]

end Project

end IntLang
