import IntLang.Proofs.Project.Paths
import IntLang.Proofs.Project.Twins

/-!
# Series of steps, with and without styles

A series of steps works on one tree of files; each step has a console and processes of its own. Whether the
consoles show styles makes no difference but the styles: the results, the calls and the files of every step
are the same, and so is what a terminal shows.

* `Step.command`: what is done in a step: a command, or a change of the files from outside;
* `Series.reports`: what there is to see of the steps, one after another;
* `Step.unstyled_report`: one step;
* **`Series.unstyled_reports`**: all steps.
-/

namespace IntLang

/-! ## Steps -/

/-- What is done in a step. The last two come from outside. -/
inductive Deed where
  | perform (args : List String)
  | build (file : Option String)
  | run (file : Option String)
  | tree (file : Option String)
  | emit (file : Option String)
  | create (name : Option String)
  | configure (file : Option String)
  | write (path : Path) (text : String)
  | remove (path : Path)
  deriving Repr

/-- What comes back from it. -/
inductive Answer where
  | status (n : Nat)
  | built (artifacts : Artifacts)
  | ran (artifacts : Artifacts) (output : String)
  | created (path : Path)
  | config (c : Config)
  | done
  deriving DecidableEq, Repr

/-- A step: where it is done, and on which machine; how the processes will end that it starts, and how long
a build takes. -/
structure Step where
  dir : Path
  script : List Outcome
  deed : Deed
  machine : Machine
  elapsed : Int

/-- No process was started yet. -/
def Step.shell (step : Step) : Shell := ⟨step.script, [], step.machine, step.elapsed⟩

/-- The tree with a file, or a directory if the path has a closing slash. The directories above it are
made; where that fails, nothing is done. -/
def FileTree.place (files : FileTree) (path : Path) (text : String) : FileTree :=
  let made (names : List UnitText) := (files.makeDirs names).toOption.getD files
  if path.slash then made path.segments
  else (writeAt text (made path.segments.dropLast) path.segments).toOption.getD files

namespace Step

open Command Project

def command (templates : List Path) (step : Step) : Command Answer :=
  match step.deed with
  | .perform args => do return .status (← CommandLine.perform templates step.dir args)
  | .build file => do return .built (← build step.dir file)
  | .run file => do
    let (artifacts, output) ← run step.dir file
    return .ran artifacts output
  | .tree file => do
    tree step.dir file
    return .done
  | .emit file => do
    emit step.dir file
    return .done
  | .create name => do return .created (← create templates name step.dir)
  | .configure file => do return .config (← lift .config (Config.load (← files) step.dir file))
  | .write path text => do
    change fun files => .ok (files.place path text)
    return .done
  | .remove path => do
    change fun files => .ok (files.remove path.segments)
    return .done

end Step

/-- What there is to see of a step: its result, the calls, the files behind it, and both streams. -/
structure Report where
  result : Except Failure Answer
  calls : List (List UnitText)
  files : FileTree
  out : String
  err : String
  deriving Repr

namespace Report

def ofResult : EStateM.Result Failure Workspace Answer → Report
  | .ok answer w => ⟨.ok answer, w.shell.calls, w.files, w.console.out, w.console.err⟩
  | .error e w => ⟨.error e, w.shell.calls, w.files, w.console.out, w.console.err⟩

/-- The report as a terminal shows it. -/
def unstyled (r : Report) : Report :=
  { r with out := Style.unstyled r.out, err := Style.unstyled r.err }

end Report

/-- A step on some files, with styles or without. -/
def Step.report (templates : List Path) (shown : Bool) (files : FileTree) (step : Step) : Report :=
  .ofResult (step.command templates ⟨files, step.shell, .empty shown⟩)

/-- Each step works on the files that the one before leaves. -/
def Series.reports (templates : List Path) (shown : Bool) : FileTree → List Step → List Report
  | _, [] => []
  | files, step :: steps =>
    let report := step.report templates shown files
    report :: reports templates shown report.files steps

/-! ## Texts without escape characters -/

def Deed.Clear : Deed → Prop
  | .perform args => ∀ arg ∈ args, Text.Clear arg
  | .build file | .run file | .tree file | .emit file | .configure file => ∀ text ∈ file, Text.Clear text
  | .create name => ∀ text ∈ name, Text.Clear text
  | .write _ text => Text.Clear text
  | .remove _ => True

instance : (deed : Deed) → Decidable deed.Clear
  | .perform args => inferInstanceAs (Decidable (∀ arg ∈ args, Text.Clear arg))
  | .build file | .run file | .tree file | .emit file | .configure file =>
    inferInstanceAs (Decidable (∀ text ∈ file, Text.Clear text))
  | .create name => inferInstanceAs (Decidable (∀ text ∈ name, Text.Clear text))
  | .write _ text => inferInstanceAs (Decidable (Text.Clear text))
  | .remove _ => .isTrue trivial

structure Step.Clear (step : Step) : Prop where
  dir : step.dir.Clear
  script : ∀ outcome ∈ step.script, outcome.result.Clear
  deed : step.deed.Clear
  machine : step.machine.Clear

/-- Where the machine brings no such text in, the rest can be looked up. -/
instance (dir : Path) (script : List Outcome) (deed : Deed) (elapsed : Int) :
    Decidable (Step.Clear ⟨dir, script, deed, .inert, elapsed⟩) :=
  decidable_of_iff (dir.Clear ∧ (∀ outcome ∈ script, outcome.result.Clear) ∧ deed.Clear)
    ⟨fun ⟨hd, hs, hdeed⟩ => ⟨hd, hs, hdeed, Machine.clear_inert⟩, fun h => ⟨h.dir, h.script, h.deed⟩⟩

/-- The settings of each step's directory are clear when the step is done. -/
def Series.SettingsClear (templates : List Path) : FileTree → List Step → Prop
  | _, [] => True
  | files, step :: steps => Settings.ClearIn files step.dir ∧
      SettingsClear templates (step.report templates false files).files steps

instance Series.decidableSettingsClear (templates : List Path) :
    (files : FileTree) → (steps : List Step) → Decidable (SettingsClear templates files steps)
  | _, [] => .isTrue trivial
  | files, step :: steps =>
    have := decidableSettingsClear templates (step.report templates false files).files steps
    inferInstanceAs (Decidable (_ ∧ _))

/-! ## One step -/

namespace Step

open Command Project

variable {templates : List Path} {step : Step} {files : FileTree} {styled bare : Workspace}

theorem allTexts_place {P : String → Prop} (h : files.AllTexts P) {text : String} (ht : P text)
    (path : Path) : (files.place path text).AllTexts P := by
  have made (names : List UnitText) : ((files.makeDirs names).toOption.getD files).AllTexts P := by
    cases hm : files.makeDirs names with
    | ok t => exact h.makeDirs hm
    | error fault => exact h
  unfold FileTree.place
  dsimp only
  split
  · exact made _
  · cases hw : FileTree.writeAt text ((files.makeDirs path.segments.dropLast).toOption.getD files)
      path.segments with
    | ok t => exact (made _).writeAt ht hw
    | error fault => exact h

/-- **A step ends alike with styles and without.** -/
theorem agreesOn_command (h : styled.Twin bare) (ht : ∀ p ∈ templates, p.Clear)
    (hc : step.Clear) (hs : Settings.ClearIn bare.files step.dir) :
    AgreesOn styled bare (fun _ => True) (step.command templates) := by
  obtain ⟨dir, script, deed, machine, elapsed⟩ := step
  obtain ⟨hd, -, hdeed, -⟩ := hc
  cases deed with
  | perform args =>
    exact (CommandLine.agreesOn_perform h ht hd hdeed hs).bind fun _ _ => .pure trivial
  | build file => exact (agreesOn_build h hs hd hdeed).bind fun _ _ => .pure trivial
  | run file => exact (agreesOn_run h hs hd hdeed).bind fun _ _ => .pure trivial
  | tree file => exact (agreesOn_tree h hs hd hdeed).bind fun _ _ => .pure trivial
  | emit file => exact (agreesOn_emit h hs hd hdeed).bind fun _ _ => .pure trivial
  | create name => exact (agrees_create ht hdeed hd _ _ h).bind fun _ _ => .pure trivial
  | configure file =>
    have loaded : Agrees (fun _ => True) (do
        return Answer.config (← lift .config (Config.load (← Command.files) dir file))) := by
      refine Agrees.files.bind fun files texts => ?_
      cases hl : Config.load files dir file with
      | ok c => exact .pure trivial
      | error e => exact .throw_bind (Config.clear_of_load_error texts hl) _
    exact loaded _ _ h
  | write path text =>
    have written : Agrees (fun _ => True) (change fun files => .ok (files.place path text)) :=
      .change fun t t' ht hw => by
        cases hw
        exact allTexts_place ht hdeed path
    exact (written.bind fun _ _ => .pure trivial) _ _ h
  | remove path =>
    have removed : Agrees (fun _ => True) (change fun files => .ok (files.remove path.segments)) :=
      .change fun t t' ht hw => by
        cases hw
        exact ht.remove path.segments
    exact (removed.bind fun _ _ => .pure trivial) _ _ h

/-- Two runs that end alike are reported alike. -/
theorem unstyled_ofResult {Q : Answer → Prop} {first second : EStateM.Result Failure Workspace Answer}
    (h : Together Q first second) : (Report.ofResult first).unstyled = .ofResult second ∧
      (Report.ofResult second).files.AllTexts Text.Clear := by
  cases h with
  | ok h _ | error h _ =>
    refine ⟨?_, h.texts⟩
    simp only [Report.ofResult, Report.unstyled, h.files, h.shell, h.console.out.unstyled_eq,
      h.console.err.unstyled_eq]

/-- **One step.** The terminal shows what is printed without styles, and all else is the same. -/
theorem unstyled_report (ht : ∀ p ∈ templates, p.Clear) (hf : files.AllTexts Text.Clear)
    (hc : step.Clear) (hs : Settings.ClearIn files step.dir) :
    (step.report templates true files).unstyled = step.report templates false files ∧
      (step.report templates false files).files.AllTexts Text.Clear :=
  have twins : Workspace.Twin ⟨files, step.shell, .empty true⟩ ⟨files, step.shell, .empty false⟩ :=
    ⟨rfl, rfl, Console.twin_empty, hf, hc.script, hc.machine⟩
  unstyled_ofResult (agreesOn_command twins ht hc hs)

end Step

/-! ## All steps -/

/-- **Styles are all that styles change.** If no text in the files and the steps holds an escape character, no
path of a template and no setting that is decoded on the way, then a series of steps with styles shows what
it prints without them, and the results, the calls and the files of every step are the same. -/
theorem Series.unstyled_reports (templates : List Path) (files : FileTree) (steps : List Step)
    (ht : ∀ p ∈ templates, p.Clear) (hf : files.AllTexts Text.Clear)
    (hc : ∀ step ∈ steps, step.Clear) (hs : SettingsClear templates files steps) :
    (reports templates true files steps).map Report.unstyled = reports templates false files steps := by
  induction steps generalizing files with
  | nil => rfl
  | cons step steps ih =>
    obtain ⟨hstep, hsteps⟩ := List.forall_mem_cons.mp hc
    obtain ⟨here, behind⟩ := hs
    obtain ⟨same, texts⟩ := Step.unstyled_report ht hf hstep here
    have left : (step.report templates true files).files = (step.report templates false files).files := by
      rw [← same]
      rfl
    rw [reports, reports, List.map_cons, same, left]
    exact congrArg _ (ih _ texts hsteps behind)

/-- A run that fails, and a source that is spoiled then. -/
def Series.spoiled : List Step :=
  let here : Path := .ofText (Text.units "/w")
  [⟨here, [.ended ⟨some 1, "", "\nno\r\n good\n\n", none⟩], .perform ["run", "main.mc"], .inert, 0⟩,
    ⟨here, [], .write (here.join "main.mc") "a;", .inert, 0⟩,
    ⟨here, [], .perform ["build", "main.mc"], .inert, 0⟩]

/-- A source and a configuration file. -/
def Series.start : FileTree := .directory [("main.mc", "print(1);"), (configFile, "\x7b\"out\":\"o\"\x7d")]

/-- On that series the consoles do show styles, which make no other difference. -/
theorem Series.unstyled_reports_spoiled :
    (start.AllTexts Text.Clear ∧ (∀ step ∈ spoiled, step.Clear) ∧ SettingsClear [] start spoiled) ∧
    (reports [] true start spoiled).map Report.unstyled = reports [] false start spoiled ∧
    (reports [] true start spoiled).map Report.err =
      ["\x1b[31m✗\x1b[39m Error: Compilation failed.\n\x1b[2m  \x1b[22m\n" ++
          "\x1b[2m  no\r\x1b[22m\n\x1b[2m   good\x1b[22m\n",
        "", "\x1b[31m✗\x1b[39m Semantic Error: Variable 'a' used but not declared.\n"] := by
  have files : start.AllTexts Text.Clear := by
    have source : Text.Clear "print(1);" := by decide
    have config : Text.Clear "\x7b\"out\":\"o\"\x7d" := by decide
    refine .dir (List.forall_mem_singleton.mpr (.dir (List.forall_mem_cons.mpr ⟨.file source, ?_⟩)))
    exact List.forall_mem_singleton.mpr (.file config)
  have steps : ∀ step ∈ spoiled, step.Clear :=
    List.forall_mem_cons.mpr ⟨by decide +kernel, List.forall_mem_cons.mpr ⟨by decide +kernel,
      List.forall_mem_singleton.mpr (by decide +kernel)⟩⟩
  have settings : SettingsClear [] start spoiled := by decide +kernel
  exact ⟨⟨files, steps, settings⟩, unstyled_reports [] start spoiled nofun files steps settings,
    by decide +kernel⟩

end IntLang
