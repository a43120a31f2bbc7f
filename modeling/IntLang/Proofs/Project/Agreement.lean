import IntLang.Proofs.Project.Conduct

/-!
# The agreement of the commands

The four commands on a project share one compilation: what one prints, another writes or prints as well.

* `Project.Agreement`: what the commands have in common where they get past loading;
* **`commands_agree`**: all commands fail alike, or agree.
-/

namespace IntLang

/-! ## What is printed -/

@[simp] theorem Console.write_write (c : Console) (text more : String) :
    (c.write text).write more = c.write (text ++ more) := by
  simp [write, String.append_assoc]

/-- What is written on an empty console is all that stands there. -/
theorem Console.out_write_empty (color : Bool) (text : String) :
    ((Console.empty color).write text).out = text :=
  String.empty_append

namespace Project

open Command

/-- What a tree adds to a console depends on its colour only. -/
theorem withTree_eq (tree : String) (c : Console) :
    withTree tree c = c.write (withTree tree (.empty c.color)).out := by
  unfold withTree Console.rule Console.heading Console.line
  dsimp only
  split <;> simp only [Console.write_write, Console.out_write_empty] <;> rfl

/-- What a build adds to a console depends on its colour only. -/
theorem withBuild_eq (artifacts : Artifacts) (elapsed : Int) (c : Console) :
    withBuild artifacts elapsed c = c.write (withBuild artifacts elapsed (.empty c.color)).out := by
  unfold withBuild withArtifacts Console.ok Console.line
  simp only [Console.write_write, Console.out_write_empty]
  rfl

theorem withOutput_eq (result : Path) (output : String) (c : Console) :
    ∃ printed, withOutput result output c = c.write printed := by
  unfold withOutput Console.rule Console.heading Console.line
  exact ⟨_, by simp only [Console.write_write]; rfl⟩

/-! ## Agreement -/

variable {dir : Path} {cwd : UnitText} {file : Option String} {w : Workspace} {c : Config}
  {compilation : Compilation} {files : FileTree}


/-- A build and a run fail alike to put the `text` in place, or both call the compiler on it. It is there
at the end if the processes spare it. -/
inductive PutAlike (c : Config) (text printed : String) (dir : Path) (file : Option String)
    (w : Workspace) : Prop
  | unplaced {e : FileFault} {files : FileTree}
    (code : files.standing c.job.artifacts.code.segments =
      w.files.standing c.job.artifacts.code.segments)
    (build : build dir file w = .error (.file e) ⟨files, w.shell, w.console⟩)
    (run : run dir file w = .error (.file e) ⟨files, w.shell, w.console.write printed⟩)
  | placed
    (built : w.shell.machine.Spares c.job.artifacts.code.segments →
      ((build dir file).after w).files.standing c.job.artifacts.code.segments = .text text)
    (buildCalls : ((build dir file).after w).shell.calls = w.shell.calls ++ [c.job.call])
    (ran : w.shell.machine.Spares c.job.artifacts.code.segments →
      ((run dir file).after w).files.standing c.job.artifacts.code.segments = .text text)
    (runCalls : ∃ more, ((run dir file).after w).shell.calls = w.shell.calls ++ c.job.call :: more)

/-- What the commands on a project have in common: the `text` of the program in C and what is
`printed` with its tree. -/
structure Agreement (c : Config) (text printed : String) (dir : Path) (file : Option String)
    (w : Workspace) : Prop where
  tree : tree dir file w = .ok () { w with console := w.console.write printed }
  emit : emit dir file w = .ok () { w with console := w.console.write text }
  runOut : ∃ rest, ((run dir file).after w).console.out = w.console.out ++ printed ++ rest
  code : PutAlike c text printed dir file w

theorem putAlike_of_load (h : load w.files dir file = .ok (c, compilation)) (placed : c.Placed)
    {printed : String} (hp : withTree compilation.treeText w.console = w.console.write printed) :
    PutAlike c compilation.codeText printed dir file w := by
  rcases hput : c.job.place w.shell.machine compilation.codeText w.files with ⟨_ | e, files⟩
  · have text := Job.standing_of_place hput
    obtain ⟨built, called⟩ := build_of_place h hput
    obtain ⟨left, more, started⟩ := run_of_place h hput
    refine .placed (fun spared => ?_) (congrArg Shell.calls called) (fun spared => ?_)
      ⟨more, congrArg Shell.calls started⟩
    · rw [built, ← text]
      exact spared.touch _ _ files
    · have compiled := (spared.touch c.job.call (w.shell.outcome 0) files).trans text
      have executed := (spared.touch [c.job.artifacts.executable.units] (w.shell.outcome 1) _).trans
        compiled
      obtain left | left | left := left
      · exact left ▸ compiled
      · exact left ▸ executed
      · rw [Machine.standing_write left, if_neg placed.segments_ne]
        exact executed
  · refine .unplaced ?_ (build_of_fault h hput) (by rw [run_of_fault h hput, ← hp])
    exact (Job.grownAt_of_place hput nofun).standing_eq placed.isIn_code.not_prefix

/-- What a run prints starts with the tree, whatever comes behind it. -/
theorem out_run (h : load w.files dir file = .ok (c, compilation)) :
    ∃ rest, ((run dir file).after w).console.out =
      (withTree compilation.treeText w.console).out ++ rest := by
  have printed : ∃ rest, (withTree compilation.treeText w.console).out =
      (withTree compilation.treeText w.console).out ++ rest := ⟨"", (String.append_empty).symm⟩
  rw [after, run_eq h]
  dsimp only
  rcases c.job.place w.shell.machine compilation.codeText w.files with ⟨_ | e, files⟩
  · dsimp only
    by_cases hc : (w.shell.result 0).exitCode = some 0
    · by_cases he : (w.shell.result 1).exitCode = some 0
      · rw [if_pos hc, if_pos he]
        cases w.shell.machine.write c.result (w.shell.result 1).out
            (w.shell.touch 1 [c.job.artifacts.executable.units] (w.shell.touch 0 c.job.call files)) with
        | ok written =>
          obtain ⟨rest, hrest⟩ := withOutput_eq c.result (w.shell.result 1).out
            (withTree compilation.treeText w.console)
          exact ⟨rest, congrArg Console.out hrest⟩
        | error e => exact printed
      · rw [if_pos hc, if_neg he]
        exact printed
    · rw [if_neg hc]
      exact printed
  · exact printed

/-- **Behind loading, the commands agree.** -/
theorem exists_agreement (h : load w.files dir file = .ok (c, compilation)) (placed : c.Placed) :
    ∃ printed, Agreement c compilation.codeText printed dir file w := by
  have hprinted := withTree_eq compilation.treeText w.console
  obtain ⟨rest, out⟩ := out_run h
  refine ⟨_, ⟨?_, ?_, ⟨rest, ?_⟩, putAlike_of_load h placed hprinted⟩⟩
  · rw [tree_eq, h, ← hprinted]
  · rw [emit_eq, h]
  · rw [out, hprinted]
    rfl

/-- **Where the project cannot be loaded, all commands fail alike and before any effect; otherwise they
agree.** -/
theorem commands_agree (cwd : UnitText) (file : Option String) (w : Workspace) :
    (∃ e, LoadFails w.files (.ofText cwd) file e ∧
      tree (.ofText cwd) file w = .error e w ∧ emit (.ofText cwd) file w = .error e w ∧
      build (.ofText cwd) file w = .error e w ∧ run (.ofText cwd) file w = .error e w) ∨
    ∃ c text printed, Config.load w.files (.ofText cwd) file = .ok c ∧
      Agreement c text printed (.ofText cwd) file w := by
  cases h : load w.files (.ofText cwd) file with
  | error e =>
    have fails := loadFails_iff.mpr h
    refine .inl ⟨e, fails, ?_, ?_, build_of_loadFails fails, run_of_loadFails fails⟩
    · rw [tree_eq, h]
    · rw [emit_eq, h]
  | ok project =>
    have hc := config_of_load h
    obtain ⟨printed, agreement⟩ := exists_agreement h (Config.placed_of_load hc)
    exact .inr ⟨project.1, project.2.codeText, printed, hc, agreement⟩

end Project

end IntLang
