import IntLang.Proofs.Project.Separation

/-!
# The conduct of builds and runs

Whatever the tools answer and whichever file operation fails, a command on a project keeps to one order
of calls and to two files. What else changes is the doing of the processes it starts.

* `Config.Conduct`: what a build or a run does to a workspace, however it ends;
* `Config.Keeps`: how a run ends once the program has ended well;
* `Placed.isIn_executable_iff`: when the executable stands beside its C text;
* **`conduct_of_load`**: these facts together, for every project that is loaded.
-/

namespace IntLang

/-! ## Entries of a directory -/

/-- A path leads to an entry of the directory that the other leads to. -/
def Path.IsIn (p dir : Path) : Prop := ∃ name, IsName name ∧ p = ⟨dir.segments ++ [name], false⟩

namespace Path

variable {p dir : Path}

theorem IsIn.length (h : p.IsIn dir) : p.segments.length = dir.segments.length + 1 := by
  obtain ⟨name, -, rfl⟩ := h
  simp

theorem isIn_join_iff {text : UnitText} (hp : dir.slash = false) (hs : unit '/' ∉ text) :
    (dir.join text).IsIn dir ↔ IsName text := by
  constructor
  · intro h
    have hl := h.length
    obtain ⟨-, hj⟩ | ⟨-, hj⟩ | hn := join_cases hp hs
    · rw [hj] at hl
      omega
    · simp only [hj, parent, List.length_dropLast] at hl
      omega
    · exact hn
  · exact fun h => ⟨text, h, join_of_isName h dir⟩

/-- A directory is on no way that ends above it. -/
theorem IsIn.not_prefix (h : p.IsIn dir) : ¬ p.segments <+: dir.segments := by
  intro hp
  have hl := hp.length_le
  rw [h.length] at hl
  omega

end Path

namespace Config

variable {c : Config}

theorem Placed.isIn_code (h : c.Placed) : c.job.artifacts.code.IsIn c.out :=
  ⟨_, h.isName_code, Path.join_of_isName h.isName_code c.out⟩

theorem isIn_result (c : Config) : c.result.IsIn c.out :=
  ⟨_, isName_result, Path.join_of_isName isName_result c.out⟩

theorem Placed.segments_ne (h : c.Placed) : c.job.artifacts.code.segments ≠ c.result.segments := by
  intro hs
  have hc := Path.join_of_isName h.isName_code c.out
  have hslash : c.job.artifacts.code.slash = false := congrArg Path.slash hc
  exact h.code_ne_result (Path.eq_join_of_segments isName_result hslash hs)

/-- **Two names of a source lead its executable out of the output directory.** -/
theorem Placed.isIn_executable_iff (h : c.Placed) (hr : c.entry ≠ .root) :
    c.job.artifacts.executable.IsIn c.out ↔ c.entry.name ∉ ["..mc", "...mc"].map Text.units := by
  have hne : c.name ≠ [] := fun hn => hr (h.entry_eq_root hn)
  have hin : c.job.artifacts.executable.IsIn c.out ↔ Path.IsName c.name :=
    Path.isIn_join_iff h.outSlash h.noSlash
  rw [hin]
  obtain ⟨hs, hw⟩ | ⟨-, hs⟩ := c.entry.stem_eq ".mc"
  · rw [← h.name] at hs
    refine iff_of_true (h.isName_of_whole hs hne) fun hm => ?_
    simp only [List.map_cons, List.map_nil, List.mem_cons, List.not_mem_nil, or_false] at hm
    obtain hm | hm := hm
    all_goals
      rw [hm] at hw
      revert hw
      decide
  · rw [← h.name] at hs
    have hd : ["..mc", "...mc"].map Text.units =
        [Text.units "." ++ Text.units ".mc", Text.units ".." ++ Text.units ".mc"] := by decide
    rw [hs, hd]
    simp only [List.mem_cons, List.append_cancel_right_eq, List.not_mem_nil, or_false, not_or]
    exact ⟨fun hn => ⟨hn.ne_dot, hn.ne_dots⟩, fun ⟨hd, hdd⟩ => ⟨hne, hd, hdd, h.noSlash⟩⟩

/-! ## Conduct -/

/-- What a command on a project did to a workspace, with the calls it `started`. The program is
`asked` for by a run, but not by a build. -/
structure Conduct (c : Config) (code : String) (asked : Bool) (w : Workspace)
    (started : List (List UnitText)) (w' : Workspace) : Prop where
  calls : w'.shell.calls = w.shell.calls ++ started
  order : started <+: [c.job.call, [c.job.artifacts.executable.units]]
  second : started.length = 2 ↔ asked ∧ started ≠ [] ∧ (w.shell.result 0).exitCode = some 0
  inside : c.job.artifacts.code.IsIn c.out
  /-- What is made of nothing but dots and the ending leads out of the directory. -/
  executable : started ≠ [] →
    (c.job.artifacts.executable.IsIn c.out ↔ c.entry.name ∉ ["..mc", "...mc"].map Text.units)
  /-- Nothing is compiled before the C text is in place, where it stays if the processes spare it. -/
  code : started ≠ [] → w.shell.machine.Spares c.job.artifacts.code.segments →
    w'.files.standing c.job.artifacts.code.segments = .text code
  unplaced : started = [] → w'.files.standing c.job.artifacts.code.segments =
    w.files.standing c.job.artifacts.code.segments
  /-- An earlier result stays until the program has ended well. -/
  earlier : ¬ (started.length = 2 ∧ (w.shell.result 1).exitCode = some 0) →
    w.shell.machine.Spares c.result.segments →
    w'.files.standing c.result.segments = w.files.standing c.result.segments
  /-- All other changes are directories on the way, or are made by the processes. -/
  elsewhere : ∀ names, names ≠ c.job.artifacts.code.segments → names ≠ c.result.segments →
    w.shell.machine.Spares names → w.files.GrownAt c.out.segments w'.files names

/-- How a run ends once the program has ended well: with what it printed in the result, on the console
and as the value of the command, or with a failure of that file. -/
inductive Keeps (c : Config) (output : String) (w : Workspace) :
    EStateM.Result Failure Workspace (Artifacts × String) → Prop
  | kept {w' : Workspace} (hs : w'.files.standing c.result.segments = .text output)
    (ho : ∃ front back, w'.console.out = front ++ output ++ back) :
    Keeps c output w (.ok (c.job.artifacts, output) w')
  | unkept {e : FileFault} {w' : Workspace}
    (hf : w.shell.machine.write c.result output w'.files = .error e)
    (hs : w.shell.machine.Spares c.result.segments →
      w'.files.standing c.result.segments = w.files.standing c.result.segments) :
    Keeps c output w (.error (.file e) w')

section Conduct

variable {code : String} {asked : Bool} {w w' : Workspace} {started : List (List UnitText)}
  {fault : Option FileFault} {files : FileTree}

theorem Placed.standing_result_of_place (h : c.Placed)
    (hp : c.job.place w.shell.machine code w.files = (fault, files)) :
    files.standing c.result.segments = w.files.standing c.result.segments :=
  (Job.grownAt_of_place hp fun _ => h.segments_ne.symm).standing_eq c.isIn_result.not_prefix

/-- A source at the root would leave no room for a C text. -/
theorem Placed.entry_ne_root {source : String} (h : c.Placed)
    (hr : w.files.read c.entry = .ok source)
    (hp : c.job.place w.shell.machine code w.files = (none, files)) : c.entry ≠ .root := by
  intro he
  have hs : w.files.standing [] = .text source := by
    have ht := (FileTree.read_eq_ok.mp hr).2
    rwa [he] at ht
  have hcode : c.job.artifacts.code.segments ≠ [] := by
    obtain ⟨name, -, hn⟩ := h.isIn_code
    simp [hn]
  obtain ⟨name, rest, hcons⟩ := List.exists_cons_of_ne_nil hcode
  have below : files.standing (name :: rest) ≠ .nothing := by
    rw [← hcons, Job.standing_of_place hp]
    exact nofun
  have directory := FileTree.standing_nil_of_ne below
  have grown : w.files.GrownAt c.job.out.segments files [] :=
    Job.grownAt_of_place hp fun _ => hcode.symm
  obtain hg | ⟨-, hg, -⟩ := grown
  · rw [directory, hs] at hg
    cases hg
  · rw [hs] at hg
    cases hg

/-- **Where the result is not written, all changes are those of the C text and of the processes.** -/
theorem Placed.conduct {source : String} (h : c.Placed) (hr : w.files.read c.entry = .ok source)
    (hp : c.job.place w.shell.machine code w.files = (none, files))
    (hfiles : ∀ names, w.shell.machine.Spares names → w'.files.standing names = files.standing names)
    (hcalls : w'.shell.calls = w.shell.calls ++ started) (hs : started ≠ [])
    (order : started <+: [c.job.call, [c.job.artifacts.executable.units]])
    (second : started.length = 2 ↔ asked ∧ started ≠ [] ∧ (w.shell.result 0).exitCode = some 0) :
    c.Conduct code asked w started w' := by
  refine ⟨hcalls, order, second, h.isIn_code, fun _ => h.isIn_executable_iff (h.entry_ne_root hr hp),
    fun _ spared => ?_, fun hn => absurd hn hs, fun _ spared => ?_, fun names hn _ spared => ?_⟩
  · rw [hfiles _ spared, Job.standing_of_place hp]
  · rw [hfiles _ spared, h.standing_result_of_place hp]
  · unfold FileTree.GrownAt
    rw [hfiles _ spared]
    exact Job.grownAt_of_place hp fun _ => hn

/-- Where the C text is not put in place, no process is started. -/
theorem Placed.conduct_of_fault {e : FileFault} (h : c.Placed)
    (hp : c.job.place w.shell.machine code w.files = (some e, files)) (hfiles : w'.files = files)
    (hshell : w'.shell = w.shell) : c.Conduct code asked w [] w' := by
  subst hfiles
  have grown (names : List UnitText) : w.files.GrownAt c.job.out.segments w'.files names :=
    Job.grownAt_of_place hp nofun
  refine ⟨by simp [hshell], List.nil_prefix, by simp, h.isIn_code, fun hs => absurd rfl hs,
    fun hs => absurd rfl hs, fun _ => ?_, fun _ _ => h.standing_result_of_place hp,
    fun names _ _ _ => grown names⟩
  exact (grown _).standing_eq h.isIn_code.not_prefix

/-- The result is written last. -/
theorem Conduct.write {output : String} {console : Console} (h : c.Conduct code asked w started w')
    (hp : c.Placed) (ended : started.length = 2 ∧ (w.shell.result 1).exitCode = some 0)
    (hw : w.shell.machine.write c.result output w'.files = .ok files) :
    c.Conduct code asked w started { w' with files, console } := by
  refine ⟨h.calls, h.order, h.second, h.inside, h.executable, fun hs spared => ?_, fun hs => ?_,
    fun hn => absurd ended hn, fun names hn hr spared => ?_⟩
  · simp only [Machine.standing_write hw, if_neg hp.segments_ne]
    exact h.code hs spared
  · rw [hs] at ended
    exact absurd ended.1 (by decide)
  · exact (h.elsewhere names hn hr spared).write (Machine.write_eq_ok.mp hw).1 hr

end Conduct

end Config

namespace Project

open Command Config

variable {cwd : UnitText} {dir : Path} {file : Option String} {w : Workspace} {c : Config}
  {compilation : Compilation}

theorem conduct_build (h : load w.files dir file = .ok (c, compilation)) (hp : c.Placed) :
    ∃ started, c.Conduct compilation.codeText false w started ((build dir file).after w) := by
  obtain ⟨-, source, hread, -⟩ := load_eq_ok.mp h
  rcases hplace : c.job.place w.shell.machine compilation.codeText w.files with ⟨_ | e, files⟩
  · obtain ⟨left, started⟩ := build_of_place h hplace
    refine ⟨[c.job.call], hp.conduct hread hplace (fun names spared => ?_)
      (congrArg Shell.calls started) (List.cons_ne_nil _ _) ⟨[_], rfl⟩ (by simp)⟩
    rw [left]
    exact spared.touch _ _ files
  · rw [after, build_of_fault h hplace]
    exact ⟨[], hp.conduct_of_fault hplace rfl rfl⟩

theorem out_withOutput (result : Path) (output : String) (c : Console) :
    ∃ front back, (withOutput result output c).out = front ++ output ++ back :=
  ⟨_, _, String.append_assoc⟩

theorem conduct_run (h : load w.files dir file = .ok (c, compilation)) (hp : c.Placed) :
    ∃ started, c.Conduct compilation.codeText true w started ((run dir file).after w) ∧
      (started.length = 2 → (w.shell.result 1).exitCode = some 0 →
        c.Keeps (w.shell.result 1).out w (run dir file w)) := by
  obtain ⟨-, source, hread, -⟩ := load_eq_ok.mp h
  rw [after, run_eq h]
  dsimp only
  rcases hplace : c.job.place w.shell.machine compilation.codeText w.files with ⟨_ | e, files⟩
  · dsimp only
    generalize hcompiled : w.shell.touch 0 c.job.call files = compiled
    generalize hexecuted : w.shell.touch 1 [c.job.artifacts.executable.units] compiled = executed
    have first (names : List UnitText) (spared : w.shell.machine.Spares names) :
        compiled.standing names = files.standing names := by
      rw [← hcompiled]
      exact spared.touch _ _ files
    have both (names : List UnitText) (spared : w.shell.machine.Spares names) :
        executed.standing names = files.standing names := by
      rw [← hexecuted, ← first names spared]
      exact spared.touch _ _ compiled
    by_cases hc : (w.shell.result 0).exitCode = some 0
    · have conduct (w' : Workspace) (hf : w'.files = executed)
          (hs : w'.shell = w.shell.behind [c.job.call, [c.job.artifacts.executable.units]]) :
          c.Conduct compilation.codeText true w [c.job.call, [c.job.artifacts.executable.units]] w' :=
        hp.conduct hread hplace (by rwa [hf]) (congrArg Shell.calls hs) (List.cons_ne_nil _ _)
          List.prefix_rfl (by simp [hc])
      by_cases he : (w.shell.result 1).exitCode = some 0
      · simp only [if_pos hc, if_pos he]
        cases hw : w.shell.machine.write c.result (w.shell.result 1).out executed with
        | ok written =>
          refine ⟨_, (conduct ⟨executed, _, w.console⟩ rfl rfl).write hp ⟨rfl, he⟩ hw, fun _ _ => ?_⟩
          refine .kept ?_ (out_withOutput _ _ _)
          rw [Machine.standing_write hw, if_pos rfl]
        | error e =>
          refine ⟨_, conduct _ rfl rfl, fun _ _ => .unkept hw fun spared => ?_⟩
          exact (both _ spared).trans (hp.standing_result_of_place hplace)
      · simp only [if_pos hc, if_neg he]
        exact ⟨_, conduct _ rfl rfl, fun _ he' => absurd he' he⟩
    · simp only [if_neg hc]
      refine ⟨[c.job.call], ?_, fun hl => absurd hl (by simp)⟩
      exact hp.conduct hread hplace first rfl (List.cons_ne_nil _ _) ⟨[_], rfl⟩ (by simp [hc])
  · refine ⟨[], ?_, fun hl => absurd hl (by simp)⟩
    exact hp.conduct_of_fault hplace rfl rfl

/-- **What a build and a run of a project do**, whatever the tools answer and whichever file operation
fails: at most two processes are started, in order; a result is kept exactly if both end well; and
nothing but the C text, that result and the way to them changes where the processes change nothing. -/
theorem conduct_of_load (h : load w.files (.ofText cwd) file = .ok (c, compilation)) :
    (∃ started, c.Conduct compilation.codeText false w started ((build (.ofText cwd) file).after w)) ∧
    ∃ started, c.Conduct compilation.codeText true w started ((run (.ofText cwd) file).after w) ∧
      (started.length = 2 → (w.shell.result 1).exitCode = some 0 →
        c.Keeps (w.shell.result 1).out w (run (.ofText cwd) file w)) := by
  have placed := placed_of_load (config_of_load h)
  exact ⟨conduct_build h placed, conduct_run h placed⟩

end Project

/-! ## Two sources -/

/-- A workspace with one source in `/w`. -/
def Workspace.ofSource (name : String) (script : List Outcome) : Workspace :=
  ⟨.directory [(name, "print(1);")], .ofScript script, .empty false⟩

/-- A compiler that fails is the end of a run. -/
theorem Project.conduct_of_load_main :
    let w := Workspace.ofSource "main.mc" [.notStarted "gcc is not installed"]
    ∃ c compilation,
      load w.files (.ofText (Text.units "/w")) (some "main.mc") = .ok (c, compilation) ∧
      ∃ started, c.Conduct compilation.codeText true w started
        ((run (.ofText (Text.units "/w")) (some "main.mc")).after w) := by
  intro w
  have loads : (load w.files (.ofText (Text.units "/w")) (some "main.mc")).isOk = true := by
    decide +kernel
  cases h : load w.files (.ofText (Text.units "/w")) (some "main.mc") with
  | error e =>
    rw [h] at loads
    cases loads
  | ok project =>
    obtain ⟨started, conduct, -⟩ := (conduct_of_load (w := w) h).2
    exact ⟨project.1, project.2, rfl, started, conduct⟩

/-- Of this name only the dots are left, and the executable would take the place of a directory. -/
theorem Project.not_isIn_executable :
    let w := Workspace.ofSource "...mc" []
    ∃ c compilation,
      load w.files (.ofText (Text.units "/w")) (some "...mc") = .ok (c, compilation) ∧
      ((build (.ofText (Text.units "/w")) (some "...mc")).after w).shell.calls = [c.job.call] ∧
      c.job.call = ["gcc", "/w/out/...c", "-o", "/w"].map Text.units ∧
      ¬ c.job.artifacts.executable.IsIn c.out := by
  intro w
  have loads : (load w.files (.ofText (Text.units "/w")) (some "...mc")).isOk = true := by
    decide +kernel
  cases h : load w.files (.ofText (Text.units "/w")) (some "...mc") with
  | error e =>
    rw [h] at loads
    cases loads
  | ok project =>
    obtain ⟨c, compilation⟩ := project
    have hc : Config.load w.files (.ofText (Text.units "/w")) (some "...mc") =
        .ok ⟨⟨[Text.units "w", Text.units "...mc"], false⟩,
          ⟨[Text.units "w", Text.units "out"], false⟩, Text.units "..", Text.units "gcc", []⟩ := by
      decide +kernel
    obtain rfl := Except.ok.inj (hc.symm.trans (config_of_load h))
    refine ⟨_, compilation, rfl, by decide +kernel, by decide +kernel, fun hi => ?_⟩
    exact absurd hi.length (by decide +kernel)

end IntLang
