import IntLang.Proofs.Project.Loading
import IntLang.Proofs.Project.Paths

/-!
# Builds and runs, step by step

A build puts the C text in place and calls the compiler; a run prints the tree before that, then calls
the program and keeps what it prints. Each of these steps may be the last.

* `Job.place`: the files with the C text in place, or what was made of them before that failed;
* `compileExecutable_eq`: how the C text is compiled;
* `build_eq`, `run_eq`: the two commands on a project that is loaded, with all their endings;
* `build_of_place`, `run_of_place`: the files that are left once the compiler was called.
-/

namespace IntLang

/-! ## The C text -/

/-- The files with the C text in place. Where that fails, directories may have been made. -/
def Job.place (job : Job) (machine : Machine) (code : String) (files : FileTree) :
    Option FileFault × FileTree :=
  match if files.exists job.out then (none, files) else machine.makeDirs job.out.segments files with
  | (some e, made) => (some e, made)
  | (none, made) =>
    match machine.write job.artifacts.code code made with
    | .error e => (some e, made)
    | .ok written => (none, written)

namespace Job

variable {job : Job} {m : Machine} {code : String} {t t' : FileTree} {names : List UnitText}
  {fault : Option FileFault}

/-- **Where the C text is put, nothing changes but its place and the way to it.** -/
theorem grownAt_of_place (h : job.place m code t = (fault, t'))
    (hn : fault = none → names ≠ job.artifacts.code.segments) : t.GrownAt job.out.segments t' names := by
  unfold place at h
  split at h
  · next e made hmade =>
    cases h
    split at hmade
    · cases hmade
    · exact Machine.grownAt_makeDirs hmade names
  · next made hmade =>
    have grown : t.GrownAt job.out.segments made names := by
      split at hmade
      · cases hmade
        exact .refl _ t names
      · exact Machine.grownAt_makeDirs hmade names
    split at h
    · cases h
      exact grown
    · next hw =>
      cases h
      exact grown.write (Machine.write_eq_ok.mp hw).1 (hn rfl)

theorem standing_of_place (h : job.place m code t = (none, t')) :
    t'.standing job.artifacts.code.segments = .text code := by
  unfold place at h
  split at h
  · cases h
  · split at h
    · cases h
    · next hw =>
      cases h
      rw [Machine.standing_write hw, if_pos rfl]

end Job

namespace Project

open Command

/-- The two operations on files that put the C text in place, and what comes behind them. -/
theorem place_bind_eq {α : Type} (code : String) (job : Job) (next : Command α) (w : Workspace) :
    (do
      unless (← Command.files).exists job.out do
        makeDirs job.out.segments
      Command.write job.artifacts.code code
      next) w =
      match job.place w.shell.machine code w.files with
      | (some e, files) => .error (.file e) { w with files }
      | (none, files) => next { w with files } := by
  have written (made : FileTree) :
      (do Command.write job.artifacts.code code; next) { w with files := made } =
        match w.shell.machine.write job.artifacts.code code made with
        | .error e => .error (.file e) { w with files := made }
        | .ok files => next { w with files } := by
    rw [bind_eq, write_eq]
    dsimp only
    cases w.shell.machine.write job.artifacts.code code made <;> rfl
  unfold Job.place
  rw [bind_eq, files_eq]
  dsimp only
  split
  · refine (written w.files).trans ?_
    dsimp only
    cases w.shell.machine.write job.artifacts.code code w.files <;> rfl
  · rw [bind_eq, makeDirs_eq]
    rcases w.shell.machine.makeDirs job.out.segments w.files with ⟨_ | e, made⟩
    · refine (written made).trans ?_
      dsimp only
      cases w.shell.machine.write job.artifacts.code code made <;> rfl
    · rfl

/-- **The C text is put in place, and then the compiler is called.** -/
theorem compileExecutable_eq (code : String) (job : Job) (w : Workspace) :
    compileExecutable code job w =
      match job.place w.shell.machine code w.files with
      | (some e, files) => .error (.file e) { w with files }
      | (none, files) =>
        let w' := { w with files := w.shell.touch 0 job.call files, shell := w.shell.behind [job.call] }
        if (w.shell.result 0).exitCode = some 0 then .ok job.artifacts w'
        else .error (.tool (.compiler job.artifacts.code (w.shell.result 0).err)) w' := by
  unfold compileExecutable
  rw [place_bind_eq]
  rcases job.place w.shell.machine code w.files with ⟨_ | e, files⟩
  · dsimp only
    rw [bind_eq, start_eq]
    by_cases hc : (w.shell.result 0).exitCode = some 0 <;> simp [hc] <;> rfl
  · rfl

/-- **A program is called once it is compiled.** -/
theorem execute_eq (code : String) (job : Job) (w : Workspace) :
    execute code job w =
      match job.place w.shell.machine code w.files with
      | (some e, files) => .error (.file e) { w with files }
      | (none, files) =>
        let compiled := w.shell.touch 0 job.call files
        if (w.shell.result 0).exitCode = some 0 then
          let w' := { w with
            files := w.shell.touch 1 [job.artifacts.executable.units] compiled
            shell := w.shell.behind [job.call, [job.artifacts.executable.units]] }
          if (w.shell.result 1).exitCode = some 0 then .ok (job.artifacts, (w.shell.result 1).out) w'
          else
            .error (.tool (.program job.artifacts (w.shell.result 1).exitCode
                (w.shell.result 1).signal (w.shell.result 1).err)) w'
        else
          .error (.tool (.compiler job.artifacts.code (w.shell.result 0).err))
            { w with files := compiled, shell := w.shell.behind [job.call] } := by
  unfold execute
  rw [bind_eq, compileExecutable_eq]
  rcases job.place w.shell.machine code w.files with ⟨_ | e, files⟩
  · by_cases hc : (w.shell.result 0).exitCode = some 0
    · simp only [if_pos hc]
      rw [bind_eq, start_eq]
      by_cases hp : (w.shell.result 1).exitCode = some 0 <;> simp [hp] <;> rfl
    · simp only [if_neg hc]
  · rfl

/-! ## Commands -/

variable {dir : Path} {file : Option String} {w : Workspace} {config : Config}
  {compilation : Compilation}

/-- The console with what was built on it. -/
def withArtifacts (artifacts : Artifacts) (c : Console) : Console :=
  (c.ok "C generated " artifacts.code.text).ok "executable  " artifacts.executable.text

/-- What a build says last: how many milliseconds it took. -/
def completed (elapsed : Int) : String := "\nBuild completed in " ++ toString elapsed ++ "ms"

/-- The console behind a build. -/
def withBuild (artifacts : Artifacts) (elapsed : Int) (c : Console) : Console :=
  (withArtifacts artifacts c).line (completed elapsed)

/-- The console with what a program printed on it. -/
def withOutput (result : Path) (output : String) (c : Console) : Console :=
  (((c.heading "EXECUTION RESULTS").write output).line
    ("\n(Output saved to '" ++ result.text ++ "')")).rule

/-- **A build, with all its endings.** -/
theorem build_eq (h : load w.files dir file = .ok (config, compilation)) :
    build dir file w =
      match config.job.place w.shell.machine compilation.codeText w.files with
      | (some e, files) => .error (.file e) { w with files }
      | (none, files) =>
        let compiled := w.shell.touch 0 config.job.call files
        if (w.shell.result 0).exitCode = some 0 then
          .ok config.job.artifacts
            ⟨compiled, w.shell.behind [config.job.call],
              withBuild config.job.artifacts w.shell.elapsed w.console⟩
        else
          .error (.tool (.compiler config.job.artifacts.code (w.shell.result 0).err))
            { w with files := compiled, shell := w.shell.behind [config.job.call] } := by
  unfold build
  rw [loaded_bind_eq, h]
  dsimp only
  rw [bind_eq, compileExecutable_eq]
  rcases config.job.place w.shell.machine compilation.codeText w.files with ⟨_ | e, files⟩
  · by_cases hc : (w.shell.result 0).exitCode = some 0
    · simp only [if_pos hc]
      rfl
    · simp only [if_neg hc]
  · rfl

/-- **A run, with all its endings.** -/
theorem run_eq (h : load w.files dir file = .ok (config, compilation)) :
    run dir file w =
      let started := [config.job.call, [config.job.artifacts.executable.units]]
      let console := withTree compilation.treeText w.console
      match config.job.place w.shell.machine compilation.codeText w.files with
      | (some e, files) => .error (.file e) ⟨files, w.shell, console⟩
      | (none, files) =>
        let compiled := w.shell.touch 0 config.job.call files
        let executed := w.shell.touch 1 [config.job.artifacts.executable.units] compiled
        if (w.shell.result 0).exitCode = some 0 then
          if (w.shell.result 1).exitCode = some 0 then
            match w.shell.machine.write config.result (w.shell.result 1).out executed with
            | .ok files =>
              .ok (config.job.artifacts, (w.shell.result 1).out)
                ⟨files, w.shell.behind started,
                  withOutput config.result (w.shell.result 1).out console⟩
            | .error e => .error (.file e) ⟨executed, w.shell.behind started, console⟩
          else
            .error (.tool (.program config.job.artifacts (w.shell.result 1).exitCode
                (w.shell.result 1).signal (w.shell.result 1).err))
              ⟨executed, w.shell.behind started, console⟩
        else
          .error (.tool (.compiler config.job.artifacts.code (w.shell.result 0).err))
            ⟨compiled, w.shell.behind [config.job.call], console⟩ := by
  unfold run
  rw [loaded_bind_eq, h]
  dsimp only
  rw [bind_eq, printTree_eq]
  dsimp only
  rw [bind_eq, execute_eq]
  dsimp only
  rcases config.job.place w.shell.machine compilation.codeText w.files with ⟨_ | e, files⟩
  · by_cases hc : (w.shell.result 0).exitCode = some 0
    · by_cases hp : (w.shell.result 1).exitCode = some 0
      · simp only [if_pos hc, if_pos hp]
        rw [bind_eq, write_eq]
        dsimp only [Config.result, Shell.machine_behind]
        cases w.shell.machine.write (config.out.join "result.txt") (w.shell.result 1).out
          (w.shell.touch 1 [config.job.artifacts.executable.units]
            (w.shell.touch 0 config.job.call files)) <;> rfl
      · simp only [if_pos hc, if_neg hp]
    · simp only [if_neg hc]
  · rfl

/-! ## Behind the C text -/

variable {files : FileTree} {e : FileFault}

theorem build_of_fault (h : load w.files dir file = .ok (config, compilation))
    (hp : config.job.place w.shell.machine compilation.codeText w.files = (some e, files)) :
    build dir file w = .error (.file e) { w with files } := by
  rw [build_eq h, hp]

theorem run_of_fault (h : load w.files dir file = .ok (config, compilation))
    (hp : config.job.place w.shell.machine compilation.codeText w.files = (some e, files)) :
    run dir file w = .error (.file e) ⟨files, w.shell, withTree compilation.treeText w.console⟩ := by
  rw [run_eq h, hp]

/-- Past the C text, a build is left with what the compiler does. -/
theorem build_of_place (h : load w.files dir file = .ok (config, compilation))
    (hp : config.job.place w.shell.machine compilation.codeText w.files = (none, files)) :
    ((build dir file).after w).files = w.shell.touch 0 config.job.call files ∧
      ((build dir file).after w).shell = w.shell.behind [config.job.call] := by
  rw [after, build_eq h, hp]
  dsimp only
  by_cases hc : (w.shell.result 0).exitCode = some 0
  · simp only [if_pos hc, and_self]
  · simp only [if_neg hc, and_self]

/-- **Past the C text, a run is left with what its processes do, and changes one file at most.** -/
theorem run_of_place (h : load w.files dir file = .ok (config, compilation))
    (hp : config.job.place w.shell.machine compilation.codeText w.files = (none, files)) :
    (let compiled := w.shell.touch 0 config.job.call files
      let executed := w.shell.touch 1 [config.job.artifacts.executable.units] compiled
      ((run dir file).after w).files = compiled ∨ ((run dir file).after w).files = executed ∨
        w.shell.machine.write config.result (w.shell.result 1).out executed =
          .ok ((run dir file).after w).files) ∧
      ∃ more, ((run dir file).after w).shell = w.shell.behind (config.job.call :: more) := by
  rw [after, run_eq h, hp]
  dsimp only
  by_cases hc : (w.shell.result 0).exitCode = some 0
  · by_cases he : (w.shell.result 1).exitCode = some 0
    · rw [if_pos hc, if_pos he]
      cases hw : w.shell.machine.write config.result (w.shell.result 1).out
          (w.shell.touch 1 [config.job.artifacts.executable.units]
            (w.shell.touch 0 config.job.call files)) with
      | ok written => exact ⟨.inr (.inr rfl), _, rfl⟩
      | error e => exact ⟨.inr (.inl rfl), _, rfl⟩
    · rw [if_pos hc, if_neg he]
      exact ⟨.inr (.inl rfl), _, rfl⟩
  · rw [if_neg hc]
    exact ⟨.inl rfl, _, rfl⟩

end Project

end IntLang
