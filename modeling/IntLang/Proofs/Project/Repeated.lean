import IntLang.Proofs.Project.Agreement
import IntLang.Proofs.Project.Settings

/-!
# Building again

What a build puts on the disk is neither its source nor its configuration, so a second build finds what
the first one found, and leaves behind what it left. Only the clock may tell the two apart.

* `Job.place_again`: the C text is put in place once;
* `load_of_place`: the project is the same behind it, also where that fails half way;
* `Command.Leaves`: what is seen of a command, `Timed`: and how that depends on the clock;
* `Shell.Steady`: a compiler that does not spoil what a build reads;
* **`build_again`**: a build can be repeated, and so can what is printed.
-/

namespace IntLang

/-! ## The C text -/

namespace Job

variable {job : Job} {m : Machine} {code : String} {t t' : FileTree} {fault : Option FileFault}

theorem place_of_exists (h : t.exists job.out = true) (m : Machine) (code : String) :
    job.place m code t =
      match m.write job.artifacts.code code t with
      | .error e => (some e, t)
      | .ok written => (none, written) := by
  cases hw : m.write job.artifacts.code code t <;> simp only [place, if_pos h, hw]

theorem exists_of_makeDirs {p : Path} (h : m.makeDirs p.segments t = (none, t')) :
    t'.exists p = true := by
  refine FileTree.exists_of_directory ?_
  rw [FileTree.standing_makeDirs (Machine.makeDirs_of_none h), if_pos List.prefix_rfl]

/-- The directory of a C text that was put in place is there. -/
theorem exists_of_place (hs : job.out.slash = false) (h : job.place m code t = (none, t')) :
    t'.exists job.out = true := by
  unfold place at h
  split at h
  · cases h
  · next made hmade =>
    have there : made.exists job.out = true := by
      split at hmade
      · next hx =>
        cases hmade
        exact hx
      · exact exists_of_makeDirs hmade
    split at h
    · cases h
    · next hw =>
      cases h
      exact FileTree.exists_write (Machine.write_eq_ok.mp hw).1 hs there

/-- **The C text is put in place once**: where it was, or the attempt failed, nothing changes. -/
theorem place_again (hs : job.out.slash = false) (h : job.place m code t = (fault, t')) :
    job.place m code t' = (fault, t') := by
  have write_again {made : FileTree} (hx : made.exists job.out = true)
      (h : job.place m code made = (fault, t')) : job.place m code t' = (fault, t') := by
    have put := h
    rw [place_of_exists hx] at put
    split at put
    · cases put
      exact h
    · next hw =>
      cases put
      have stands := Machine.standing_write hw job.artifacts.code.segments
      rw [if_pos rfl] at stands
      rw [place_of_exists (FileTree.exists_write (Machine.write_eq_ok.mp hw).1 hs hx),
        Machine.write_again hw stands]
  by_cases hx : t.exists job.out = true
  · exact write_again hx h
  · have put := h
    rw [place, if_neg hx] at put
    split at put
    · next e made hm =>
      cases put
      have absent := Machine.exists_of_makeDirs_fault hs (Bool.eq_false_iff.mpr hx) hm
      rw [place, if_neg (Bool.eq_false_iff.mp absent), Machine.makeDirs_again hm]
    · next made hm =>
      have there := exists_of_makeDirs hm
      exact write_again there ((place_of_exists there m code).trans put)

/-- Nor does it change anything where a process was at work that spares the place of the text. -/
theorem place_of_standing {u : FileTree} (hs : job.out.slash = false)
    (h : job.place m code t = (none, t')) (ho : u.standing job.out.segments = t'.standing job.out.segments)
    (hc : u.standing job.artifacts.code.segments = t'.standing job.artifacts.code.segments) :
    job.place m code u = (none, u) := by
  have again := place_again hs h
  have there := exists_of_place hs h
  rw [place_of_exists there] at again
  rw [place_of_exists ((FileTree.exists_congr hs ho).trans there)]
  split at again
  · cases again
  · next hw =>
    cases again
    rw [Machine.write_again hw (hc.trans (standing_of_place h))]

end Job

/-! ## The project -/

namespace Config

variable {files files' : FileTree} {dir : Path} {file : Option String} {c : Config} {code : String}
  {m : Machine} {fault : Option FileFault}

theorem isName_out : Path.IsName (Text.units "out") := by decide

theorem load_of_settings {settings : Settings} (h : Settings.load files dir = .ok settings) :
    load files dir file = .ok (ofSettings settings dir file) := by
  rw [load, h]
  rfl

/-- Without settings, the output directory stands beside the source or below the project. -/
theorem out_ofSettings_empty (dir : Path) (file : Option String) :
    (ofSettings {} dir file).out =
        ⟨(ofSettings {} dir file).entry.segments.dropLast ++ [Text.units "out"], false⟩ ∨
      (ofSettings {} dir file).out = ⟨dir.segments ++ [Text.units "out"], false⟩ := by
  unfold ofSettings
  dsimp only
  split
  · exact .inl (Path.join_of_isName isName_out _)
  · exact .inr (Path.resolve_of_isName isName_out dir)

theorem Placed.code_ne_configFile (h : c.Placed) (dir : Path) :
    dir.segments ++ [Text.units configFile] ≠ c.job.artifacts.code.segments := by
  have code : c.job.artifacts.code = ⟨c.out.segments ++ [c.name ++ Text.units ".c"], false⟩ :=
    Path.join_of_isName h.isName_code c.out
  intro he
  rw [code] at he
  have hl := congrArg List.getLast? (List.append_inj_right' he rfl)
  rw [List.getLast?_singleton, List.getLast?_singleton] at hl
  have last := congrArg List.getLast? (Option.some.inj hl)
  rw [List.getLast?_append] at last
  cases last

/-- **No directory of a build takes the place of the configuration file.** -/
theorem configFile_of_place {source : String} (h : load files dir file = .ok c) (placed : c.Placed)
    (hr : files.read c.entry = .ok source) (hp : c.job.place m code files = (fault, files')) :
    files'.standing (dir.segments ++ [Text.units configFile]) =
      files.standing (dir.segments ++ [Text.units configFile]) := by
  obtain same | ⟨way, absent, -⟩ :=
    Job.grownAt_of_place hp fun _ => placed.code_ne_configFile dir
  · exact same
  -- there was no configuration file, so the output directory stands in one of two places
  · have none : files.exists (dir.join configFile) = false := by
      rw [Settings.join_configFile, Bool.eq_false_iff, ne_eq, FileTree.exists_iff rfl]
      exact not_not.mpr absent
    obtain rfl : ofSettings {} dir file = c :=
      Except.ok.inj ((load_of_settings (Settings.load_of_absent none)).symm.trans h)
    have ne_out : Text.units configFile ≠ Text.units "out" := by decide
    have below (base : List UnitText)
        (way : dir.segments ++ [Text.units configFile] <+: base ++ [Text.units "out"]) :
        dir.segments ++ [Text.units configFile] <+: base := by
      obtain he | hp := List.prefix_concat_iff.mp way
      · exact absurd (List.cons.inj (List.append_inj_right' he rfl)).1 ne_out
      · exact hp
    change _ <+: (ofSettings {} dir file).out.segments at way
    obtain out | out := out_ofSettings_empty dir file
    · rw [out] at way
      obtain ⟨rest, hrest⟩ := (below _ way).trans (List.dropLast_prefix _)
      have nothing := FileTree.standing_append_of_nothing absent rest
      have stands := (FileTree.read_eq_ok.mp hr).2
      rw [hrest, stands] at nothing
      cases nothing
    · rw [out] at way
      have hl := (below _ way).length_le
      rw [List.length_append, List.length_singleton] at hl
      omega

end Config

namespace Project

open Command

variable {cwd : UnitText} {file : Option String} {files files' : FileTree} {c : Config}
  {compilation : Compilation} {m : Machine} {code : String} {fault : Option FileFault}

/-- A project is loaded as before where its source and its configuration stand as before. -/
theorem load_congr (h : load files (.ofText cwd) file = .ok (c, compilation))
    (hs : files'.standing ((Path.ofText cwd).segments ++ [Text.units configFile]) =
      files.standing ((Path.ofText cwd).segments ++ [Text.units configFile]))
    (he : files'.standing c.entry.segments = files.standing c.entry.segments) :
    load files' (.ofText cwd) file = .ok (c, compilation) := by
  obtain ⟨configured, source, hr, hc⟩ := load_eq_ok.mp h
  obtain ⟨slash, stands⟩ := FileTree.read_eq_ok.mp hr
  refine load_eq_ok.mpr ⟨?_, source, FileTree.read_eq_ok.mpr ⟨slash, he.trans stands⟩, hc⟩
  rw [Config.load, Settings.load_congr hs]
  exact configured

/-- **Behind the C text, the project is loaded as before**, also where it was not put in place. -/
theorem load_of_place (h : load files (.ofText cwd) file = .ok (c, compilation))
    (hp : c.job.place m code files = (fault, files')) :
    load files' (.ofText cwd) file = .ok (c, compilation) := by
  obtain ⟨configured, source, hr, -⟩ := load_eq_ok.mp h
  have placed := Config.placed_of_load configured
  obtain ⟨slash, stands⟩ := FileTree.read_eq_ok.mp hr
  have apart : c.entry.segments ≠ c.job.artifacts.code.segments := fun hs =>
    placed.code_ne_entry (Path.eq_join_of_segments placed.isName_code slash hs).symm
  refine load_congr h (Config.configFile_of_place configured placed hr hp) ?_
  obtain same | ⟨-, nothing, -⟩ := Job.grownAt_of_place hp fun _ => apart
  · exact same
  · rw [stands] at nothing
    cases nothing

end Project

/-! ## What is seen of a command -/

/-- How a command ends, which processes it starts and what it prints. -/
structure Trace (α : Type) where
  ending : Except Failure α
  calls : List (List UnitText)
  out : String
  err : String

namespace Command

variable {α : Type} {x : Command α} {w w' : Workspace}

def ending (x : Command α) (w : Workspace) : Except Failure α :=
  match x w with
  | .ok a _ => .ok a
  | .error e _ => .error e

/-- In a workspace, this is seen of a command. -/
structure Leaves (x : Command α) (w : Workspace) (t : Trace α) : Prop where
  ending : x.ending w = t.ending
  calls : (x.after w).shell.calls = w.shell.calls ++ t.calls
  out : (x.after w).console.out = w.console.out ++ t.out
  err : (x.after w).console.err = w.console.err ++ t.err

/-- The same is seen of a command in two workspaces. -/
def Alike (x : Command α) (w w' : Workspace) : Prop := ∃ t, x.Leaves w t ∧ x.Leaves w' t

theorem leaves_of_ok {a : α} {calls : List (List UnitText)} {out : String} (h : x w = .ok a w')
    (hs : w'.shell.calls = w.shell.calls ++ calls) (hc : w'.console = w.console.write out) :
    x.Leaves w ⟨.ok a, calls, out, ""⟩ := by
  have after : x.after w = w' := by rw [Command.after, h]
  refine ⟨by rw [Command.ending, h], by rw [after, hs], by rw [after, hc]; rfl, ?_⟩
  rw [after, hc]
  exact String.append_empty.symm

theorem leaves_of_error {e : Failure} {calls : List (List UnitText)} (h : x w = .error e w')
    (hs : w'.shell.calls = w.shell.calls ++ calls) (hc : w'.console = w.console) :
    x.Leaves w ⟨.error e, calls, "", ""⟩ := by
  have after : x.after w = w' := by rw [Command.after, h]
  refine ⟨by rw [Command.ending, h], by rw [after, hs], ?_, ?_⟩
  all_goals
    rw [after, hc]
    exact String.append_empty.symm

end Command

namespace Project

open Command

variable {cwd : UnitText} {dir : Path} {file : Option String} {w : Workspace} {c : Config}
  {compilation : Compilation} {fault : Option FileFault} {files : FileTree}

/-- What is seen of a build behind loading, by the `fault` of the C text, what the compiler did, and the
clock. -/
def traceOfBuild (c : Config) (fault : Option FileFault) (result : ProcessResult) (color : Bool)
    (elapsed : Int) : Trace Artifacts :=
  match fault with
  | some e => ⟨.error (.file e), [], "", ""⟩
  | none =>
    if result.exitCode = some 0 then
      ⟨.ok c.job.artifacts, [c.job.call], (withBuild c.job.artifacts elapsed (.empty color)).out, ""⟩
    else ⟨.error (.tool (.compiler c.job.artifacts.code result.err)), [c.job.call], "", ""⟩

theorem leaves_build (h : load w.files dir file = .ok (c, compilation))
    (hp : c.job.place w.shell.machine compilation.codeText w.files = (fault, files)) :
    (build dir file).Leaves w
      (traceOfBuild c fault (w.shell.result 0) w.console.color w.shell.elapsed) := by
  have ends := build_eq h
  rw [hp] at ends
  cases fault with
  | some e => exact leaves_of_error ends (List.append_nil _).symm rfl
  | none =>
    rw [traceOfBuild]
    dsimp only at ends ⊢
    split at ends
    · next hc =>
      rw [if_pos hc]
      exact leaves_of_ok ends rfl (withBuild_eq _ _ _)
    · next hc =>
      rw [if_neg hc]
      exact leaves_of_error ends rfl rfl

theorem leaves_tree (h : load w.files dir file = .ok (c, compilation)) :
    (tree dir file).Leaves w
      ⟨.ok (), [], (withTree compilation.treeText (.empty w.console.color)).out, ""⟩ := by
  have step := tree_eq dir file w
  rw [h] at step
  exact leaves_of_ok step (List.append_nil _).symm (withTree_eq _ _)

theorem leaves_emit (h : load w.files dir file = .ok (c, compilation)) :
    (emit dir file).Leaves w ⟨.ok (), [], compilation.codeText, ""⟩ := by
  have step := emit_eq dir file w
  rw [h] at step
  exact leaves_of_ok step (List.append_nil _).symm rfl

/-! ## The clock -/

/-- The build stops before it calls the compiler. -/
def Early (t : Trace Artifacts) : Prop := ∃ e, t.ending = .error e ∧ ∀ tool, e ≠ .tool tool

/-- What is seen of a build depends on the clock in nothing but the number in its last line, if it comes
that far. -/
inductive Timed : (Int → Trace Artifacts) → Prop
  | untimed (t : Trace Artifacts) : Timed fun _ => t
  | timed (t : Trace Artifacts) : Timed fun elapsed =>
    { t with out := t.out ++ ("\nBuild completed in " ++ toString elapsed ++ "ms" ++ "\n") }

/-- What is the same in two workspaces. -/
structure Repeats (dir : Path) (file : Option String) (w w' : Workspace) : Prop where
  build : ∃ t, Timed t ∧
    (build dir file).Leaves w (t w.shell.elapsed) ∧ (build dir file).Leaves w' (t w'.shell.elapsed) ∧
    ∀ elapsed, (t elapsed).calls = [] ∧ Early (t elapsed) ∨
      (t elapsed).calls.length = 1 ∧ ¬ Early (t elapsed)
  /-- With the same time on the clock, nothing tells the builds apart. -/
  alike : w'.shell.elapsed = w.shell.elapsed → (Project.build dir file).Alike w w'
  /-- The second build changes nothing. -/
  files : ((Project.build dir file).after w').files = w'.files
  tree : (tree dir file).Alike w w'
  emit : (emit dir file).Alike w w'

theorem timed_traceOfBuild (c : Config) (fault : Option FileFault) (result : ProcessResult)
    (color : Bool) : Timed (traceOfBuild c fault result color) := by
  cases fault with
  | some e => exact .untimed _
  | none =>
    by_cases hc : result.exitCode = some 0
    · have timed : traceOfBuild c none result color = fun elapsed =>
          { Trace.mk (.ok c.job.artifacts) [c.job.call]
              (withArtifacts c.job.artifacts (.empty color)).out "" with
            out := (withArtifacts c.job.artifacts (.empty color)).out ++
              ("\nBuild completed in " ++ toString elapsed ++ "ms" ++ "\n") } :=
        funext fun elapsed => if_pos hc
      rw [timed]
      exact .timed _
    · have untimed : traceOfBuild c none result color = fun _ =>
          ⟨.error (.tool (.compiler c.job.artifacts.code result.err)), [c.job.call], "", ""⟩ :=
        funext fun elapsed => if_neg hc
      rw [untimed]
      exact .untimed _

theorem calls_traceOfBuild (c : Config) (fault : Option FileFault) (result : ProcessResult)
    (color : Bool) (elapsed : Int) :
    let t := traceOfBuild c fault result color elapsed
    t.calls = [] ∧ Early t ∨ t.calls.length = 1 ∧ ¬ Early t := by
  cases fault with
  | some e => exact .inl ⟨rfl, .file e, rfl, nofun⟩
  | none =>
    right
    rw [traceOfBuild]
    split
    · exact ⟨rfl, fun ⟨e, he, _⟩ => nomatch he⟩
    · refine ⟨rfl, ?_⟩
      rintro ⟨e, he, hn⟩
      cases he
      exact hn _ rfl

end Project

/-! ## Repetition -/

/-- The compiler does not touch what a build reads, nor the C text, and has nothing to change when it is
called once more. -/
structure Shell.Steady (sh : Shell) (dir : Path) (c : Config) : Prop where
  entry : sh.machine.Spares c.entry.segments
  settings : sh.machine.Spares (dir.segments ++ [Text.units configFile])
  out : sh.machine.Spares c.out.segments
  code : sh.machine.Spares c.job.artifacts.code.segments
  again : ∀ t, sh.touch 0 c.job.call (sh.touch 0 c.job.call t) = sh.touch 0 c.job.call t

namespace Shell

variable {sh sh' : Shell}

theorem touch_congr (hm : sh'.machine = sh.machine) {n : Nat} (ho : sh'.outcome n = sh.outcome n) :
    sh'.touch n = sh.touch n := by
  unfold touch
  rw [hm, ho]

/-- A compiler that leaves the files alone is steady. -/
theorem steady_of_inert (h : sh.machine = .inert) (dir : Path) (c : Config) : sh.Steady dir c := by
  have spares := Machine.spares_inert
  rw [← h] at spares
  refine ⟨spares _, spares _, spares _, spares _, fun t => ?_⟩
  unfold touch
  rw [h]
  cases sh.outcome 0 <;> rfl

end Shell

namespace Project

open Command

variable {cwd : UnitText} {file : Option String} {w w' : Workspace} {c : Config}
  {compilation : Compilation} {fault : Option FileFault} {left : FileTree}

/-- **A second build finds the project as the first one did**, has nothing to put in place and nothing to
change. -/
theorem steady_build (h : load w.files (.ofText cwd) file = .ok (c, compilation))
    (hp : c.job.place w.shell.machine compilation.codeText w.files = (fault, left))
    (files : w'.files = ((build (.ofText cwd) file).after w).files)
    (machine : w'.shell.machine = w.shell.machine) (answer : w'.shell.outcome 0 = w.shell.outcome 0)
    (steady : w.shell.Steady (.ofText cwd) c) :
    load w'.files (.ofText cwd) file = .ok (c, compilation) ∧
      c.job.place w'.shell.machine compilation.codeText w'.files = (fault, w'.files) ∧
      ((build (.ofText cwd) file).after w').files = w'.files := by
  have placed := Config.placed_of_load (config_of_load h)
  have loaded := load_of_place h hp
  cases fault with
  | some e =>
    rw [after_of_error (build_of_fault h hp)] at files
    have again : c.job.place w'.shell.machine compilation.codeText w'.files = (some e, w'.files) := by
      rw [machine, files]
      exact Job.place_again placed.outSlash hp
    have loaded : load w'.files (.ofText cwd) file = .ok (c, compilation) := by rwa [files]
    exact ⟨loaded, again, by rw [after_of_error (build_of_fault loaded again)]⟩
  | none =>
    rw [(build_of_place h hp).1] at files
    have spared (names : List UnitText) (spares : w.shell.machine.Spares names) :
        w'.files.standing names = left.standing names := by
      rw [files]
      exact spares.touch _ _ left
    have loaded := load_congr loaded (spared _ steady.settings) (spared _ steady.entry)
    have again : c.job.place w'.shell.machine compilation.codeText w'.files = (none, w'.files) := by
      rw [machine]
      exact Job.place_of_standing placed.outSlash hp (spared _ steady.out) (spared _ steady.code)
    refine ⟨loaded, again, ?_⟩
    rw [(build_of_place loaded again).1, Shell.touch_congr machine answer, files]
    exact steady.again left

end Project

end IntLang
