import IntLang.Proofs.Project.Clear
import IntLang.Proofs.Project.Untouched

/-!
# Two runs of a command

A command that runs twice, once with styles and once without, takes the same way both times: it does not
look at its console. What it prints differs in the styles only.

* `Workspace.Twin`: two workspaces that differ in their consoles alone, which show the same;
* `Command.Together`: two runs end alike, with the same result and twin workspaces;
* `Command.Agrees`: all pairs of runs do; one lemma for each part that commands are made of;
* `agrees_create`, `agreesOn_build`, `agreesOn_run`: the commands;
* **`agreesOn_perform`**: the command line.
-/

namespace IntLang

open Text (isControl_escape)

/-- Two workspaces that differ in their consoles alone, of which one shows styles and the other does not.
No text in them holds an escape character, nor any that processes leave behind. -/
structure Workspace.Twin (styled bare : Workspace) : Prop where
  files : styled.files = bare.files
  shell : styled.shell = bare.shell
  console : styled.console.Twin bare.console
  texts : bare.files.AllTexts Text.Clear
  script : ∀ outcome ∈ bare.shell.script, outcome.result.Clear
  machine : bare.shell.machine.Clear

namespace Command

variable {α β : Type} {Q : α → Prop} {R : β → Prop} {styled bare : Workspace}

/-- Two runs of a command end alike: with one result, which has a property, or with one failure, whose
report holds no escape character. -/
inductive Together (Q : α → Prop) :
    EStateM.Result Failure Workspace α → EStateM.Result Failure Workspace α → Prop
  | ok {a : α} {styled bare : Workspace} (h : styled.Twin bare) (ha : Q a) :
    Together Q (.ok a styled) (.ok a bare)
  | error {e : Failure} {styled bare : Workspace} (h : styled.Twin bare) (he : e.Clear) :
    Together Q (.error e styled) (.error e bare)

/-- The runs of the command in two workspaces end alike. -/
def AgreesOn (styled bare : Workspace) (Q : α → Prop) (x : Command α) : Prop :=
  Together Q (x styled) (x bare)

/-- The runs of the command in any two twins end alike. -/
def Agrees (Q : α → Prop) (x : Command α) : Prop :=
  ∀ styled bare : Workspace, styled.Twin bare → AgreesOn styled bare Q x

theorem AgreesOn.bind {x : Command α} {f : α → Command β} (hx : AgreesOn styled bare Q x)
    (hf : ∀ a, Q a → Agrees R (f a)) : AgreesOn styled bare R (x >>= f) := by
  unfold AgreesOn at hx ⊢
  rw [bind_eq, bind_eq]
  generalize x styled = first, x bare = second at hx
  cases hx with
  | ok h ha => exact hf _ ha _ _ h
  | error h he => exact .error h he

namespace Agrees

theorem bind {x : Command α} {f : α → Command β} (hx : Agrees Q x) (hf : ∀ a, Q a → Agrees R (f a)) :
    Agrees R (x >>= f) := fun styled bare h => (hx styled bare h).bind hf

theorem pure {a : α} (ha : Q a) : Agrees Q (Pure.pure a) := fun _ _ h => .ok h ha

theorem throw {e : Failure} (he : e.Clear) : Agrees Q (MonadExcept.throw e) := fun _ _ h => .error h he

/-- Nothing comes behind a failure. -/
theorem throw_bind {e : Failure} (he : e.Clear) (f : α → Command β) :
    Agrees R (MonadExcept.throw e >>= f) := fun _ _ h => .error h he

theorem ite {c : Prop} [Decidable c] {x y : Command α} (hx : Agrees Q x) (hy : Agrees Q y) :
    Agrees Q (if c then x else y) := by
  split
  · exact hx
  · exact hy

theorem files : Agrees (fun files => files.AllTexts Text.Clear) Command.files := by
  intro styled bare h
  rw [AgreesOn, files_eq, files_eq, h.files]
  exact .ok h h.texts

theorem shell : Agrees (fun sh => sh.machine.Clear) Command.shell := by
  intro styled bare h
  rw [AgreesOn, shell_eq, shell_eq, h.shell]
  exact .ok h h.machine

theorem ask {α : Type} {Q : α → Prop} {operation : FileTree → Except FileFault α}
    (ho : ∀ t a, t.AllTexts Text.Clear → operation t = .ok a → Q a) : Agrees Q (Command.ask operation) := by
  intro styled bare h
  rw [AgreesOn, ask_eq, ask_eq, h.files]
  cases ht : operation bare.files with
  | ok a => exact .ok h (ho _ _ h.texts ht)
  | error fault => exact .error h trivial

theorem read (p : Path) : Agrees Text.Clear (Command.ask (·.read p)) := ask fun _ _ h hr => h.read hr

theorem list (p : Path) : Agrees (fun _ => True) (Command.ask (·.list p)) := ask fun _ _ _ _ => trivial

theorem change {operation : FileTree → Except FileFault FileTree}
    (ho : ∀ t t', t.AllTexts Text.Clear → operation t = .ok t' → t'.AllTexts Text.Clear) :
    Agrees (fun _ => True) (Command.change operation) := by
  intro styled bare h
  rw [AgreesOn, change_eq, change_eq, h.files]
  cases ht : operation bare.files with
  | ok t => exact .ok ⟨rfl, h.shell, h.console, ho _ _ h.texts ht, h.script, h.machine⟩ trivial
  | error fault => exact .error h trivial

theorem writeFile {p : Path} {text : String} (ht : Text.Clear text) :
    Agrees (fun _ => True) (Command.write p text) := by
  unfold Command.write
  refine Agrees.shell.bind fun sh _ => .change fun t t' h hw => ?_
  exact h.write ht (Machine.write_eq_ok.mp hw).1

theorem makeDirs {names : List UnitText} : Agrees (fun _ => True) (Command.makeDirs names) := by
  intro styled bare h
  have texts {fault : Option FileFault} {t : FileTree}
      (hm : bare.shell.machine.makeDirs names bare.files = (fault, t)) : t.AllTexts Text.Clear := by
    have made := Machine.made_makeDirs bare.shell.machine names bare.files
    rw [hm] at made
    cases made with
    | whole made => exact h.texts.makeDirs made
    | blocked => exact h.texts
    | refused _ _ part => exact h.texts.makeDirs part
  rw [AgreesOn, makeDirs_eq, makeDirs_eq, h.shell, h.files]
  rcases hm : bare.shell.machine.makeDirs names bare.files with ⟨_ | fault, t⟩
  · exact .ok ⟨rfl, rfl, h.console, texts hm, h.script, h.machine⟩ trivial
  · exact .error ⟨rfl, rfl, h.console, texts hm, h.script, h.machine⟩ trivial

theorem say {text : Console → Console}
    (ht : ∀ styled bare : Console, styled.Twin bare → (text styled).Twin (text bare)) :
    Agrees (fun _ => True) (Command.say text) :=
  fun _ _ h => .ok ⟨h.files, h.shell, ht _ _ h.console, h.texts, h.script, h.machine⟩ trivial

theorem line {text : String} (ht : Text.Clear text) :
    Agrees (fun _ => True) (Command.say (·.line text)) := say fun _ _ h => h.line (.of_clear ht)

theorem write {text : String} (ht : Text.Clear text) :
    Agrees (fun _ => True) (Command.say (·.write text)) := say fun _ _ h => h.write (.of_clear ht)

theorem start (call : List UnitText) : Agrees ProcessResult.Clear (Command.start call) := by
  intro styled bare h
  have clear : (bare.shell.result 0).Clear := by
    unfold Shell.result Shell.outcome
    cases hs : bare.shell.script with
    | nil => exact ⟨by decide +kernel, by decide +kernel, nofun⟩
    | cons outcome script => exact h.script outcome (hs ▸ List.mem_cons_self)
  have texts : (bare.shell.touch 0 call bare.files).AllTexts Text.Clear := by
    unfold Shell.touch
    cases ho : bare.shell.outcome 0 with
    | ended result =>
      rw [Shell.result, ho] at clear
      exact h.machine.effect call result bare.files clear h.texts
    | notStarted => exact h.texts
  rw [AgreesOn, start_eq, start_eq, h.shell, h.files]
  exact .ok ⟨rfl, rfl, h.console, texts, fun o hm => h.script o (List.mem_of_mem_drop hm), h.machine⟩ clear

end Agrees

end Command

namespace Project

open Command

/-! ## Creating projects -/

section Copy

variable {name : String} (hn : Text.Clear name) {copy : Path → Path → Command (List Path)}
  (hc : ∀ src dest, Agrees (fun _ => True) (copy src dest)) (src dest : Path)

include hn hc

theorem agrees_copyEntry (entry : UnitText × Bool) :
    Agrees (fun _ => True) (copyEntry name copy src dest entry) := by
  obtain ⟨entry, _ | _⟩ := entry
  · rw [copyEntry]
    refine .ite (.pure trivial) ((Agrees.read _).bind fun text ht => ?_)
    exact .bind (.writeFile (Template.clear_fill hn ht)) fun _ _ => .pure trivial
  · exact hc _ _

theorem agrees_copyEntries (entries : List (UnitText × Bool)) :
    Agrees (fun _ => True) (copyEntries name copy src dest entries) := by
  induction entries with
  | nil => exact .pure trivial
  | cons entry entries ih =>
    rw [copyEntries]
    refine (agrees_copyEntry hn hc src dest entry).bind fun written _ => ?_
    exact ih.bind fun _ _ => .pure trivial

end Copy

theorem agrees_copyTemplate {name : String} (hn : Text.Clear name) (depth : Nat) (src dest : Path) :
    Agrees (fun _ => True) (copyTemplate name depth src dest) := by
  induction depth generalizing src dest with
  | zero => exact .throw trivial
  | succ depth ih =>
    rw [copyTemplate]
    refine .bind .makeDirs fun _ _ => (Agrees.list _).bind fun entries _ => ?_
    exact agrees_copyEntries hn ih src dest entries

theorem agrees_findTemplate {templates : List Path} (ht : ∀ p ∈ templates, p.Clear) :
    Agrees (fun _ => True) (findTemplate templates) := by
  unfold findTemplate
  refine Agrees.files.bind fun files _ => ?_
  split
  · exact .pure trivial
  · exact .throw (ConfigError.clear_templateNotFound ht)

/-- **Creating a project looks the same.** -/
theorem agrees_create {templates : List Path} {name : Option String} {dir : Path}
    (ht : ∀ p ∈ templates, p.Clear) (hn : ∀ text ∈ name, Text.Clear text) (hd : dir.Clear) :
    Agrees (fun _ => True) (create templates name dir) := by
  have given : Text.Clear (name.getD defaultName) := by
    cases name with
    | none => exact Text.Printable.clear (by decide +kernel)
    | some text => exact hn text rfl
  unfold create
  generalize name.getD defaultName = name at given
  have path := (hd.join (Text.notMem_units isControl_escape given)).clear_text
  refine .bind .files fun files _ => ?_
  dsimp only
  split
  · exact .throw_bind (ConfigError.clear_folderExists given) _
  refine (agrees_findTemplate ht).bind fun src _ => Agrees.shell.bind fun sh _ => ?_
  refine (agrees_copyTemplate given _ src _).bind fun written _ => ?_
  have done : Text.Clear ("Project \"" ++ name ++ "\" created (" ++ toString written.length ++ " files)") :=
    ((isControl_escape.quoted given (by decide +kernel) (by decide +kernel)).append
      (Text.printable_nat _).clear).append (Text.Printable.clear (by decide +kernel))
  refine .bind (.say fun _ _ h => h.ok done path) fun _ _ => ?_
  refine .bind (.line ((show Text.Clear "\n  cd " by decide +kernel).append given)) fun _ _ => ?_
  exact .bind (.line (by decide +kernel)) fun _ _ => .pure trivial

/-! ## Commands on a project -/

section Commands

variable {code : String} {config : Config}

theorem agrees_compileExecutable (hc : Text.Clear code) (job : Job) :
    Agrees (fun artifacts => artifacts = job.artifacts) (compileExecutable code job) := by
  unfold compileExecutable
  refine Agrees.files.bind fun files _ => .ite ?_ (Agrees.makeDirs.bind fun _ _ => ?_)
  all_goals
    refine (Agrees.writeFile hc).bind fun _ _ => (Agrees.start _).bind fun result hr => ?_
    exact .ite (.throw_bind (ToolFailure.clear_compiler hr.err) _) (.pure rfl)

theorem agrees_execute (hc : Text.Clear code) (job : Job) :
    Agrees (fun ran => ran.1 = job.artifacts ∧ Text.Clear ran.2) (execute code job) := by
  unfold execute
  refine (agrees_compileExecutable hc job).bind fun artifacts ha => ?_
  refine (Agrees.start _).bind fun result hr => ?_
  exact .ite (.throw_bind (ToolFailure.clear_program hr) _) (.pure ⟨ha, hr.out⟩)

theorem agrees_printTree {tree : String} (ht : Text.Clear tree) :
    Agrees (fun _ => True) (printTree tree) := by
  refine .bind (.say fun _ _ h => h.heading (by decide +kernel)) fun _ _ => ?_
  have rule : Agrees (fun _ => True) (Command.say (·.rule)) := .say fun _ _ h => h.rule
  exact .ite rule (.bind (.line ht) fun _ _ => rule)

variable {dir : Path} {file : Option String} {styled bare : Workspace}

/-- What is made of a project that is loaded. -/
theorem agreesOn_loaded_bind {α : Type} {Q : α → Prop} {f : Config × Compilation → Command α}
    (h : styled.Twin bare) (hs : Settings.ClearIn bare.files dir) (hd : dir.Clear)
    (hf : ∀ text ∈ file, Text.Clear text)
    (hq : ∀ config compilation, config.Clear → Text.Clear compilation.treeText →
      Text.Clear compilation.codeText → Agrees Q (f (config, compilation))) :
    AgreesOn styled bare Q (loaded dir file >>= f) := by
  have clear := clear_of_load h.texts hs hd hf
  rw [AgreesOn, loaded_bind_eq, loaded_bind_eq, h.files]
  cases hl : load bare.files dir file with
  | ok project =>
    rw [hl] at clear
    exact hq _ _ clear.1 clear.2.1 clear.2.2 _ _ h
  | error e =>
    rw [hl] at clear
    exact .error h clear

variable (h : styled.Twin bare) (hs : Settings.ClearIn bare.files dir)
  (hd : dir.Clear) (hf : ∀ text ∈ file, Text.Clear text)

include h hs hd hf

theorem agreesOn_tree : AgreesOn styled bare (fun _ => True) (tree dir file) :=
  agreesOn_loaded_bind h hs hd hf fun _ _ _ ht _ => agrees_printTree ht

theorem agreesOn_emit : AgreesOn styled bare (fun _ => True) (emit dir file) :=
  agreesOn_loaded_bind h hs hd hf fun _ _ _ _ hc => .write hc

/-- **A build looks the same.** -/
theorem agreesOn_build : AgreesOn styled bare (fun _ => True) (build dir file) := by
  refine agreesOn_loaded_bind h hs hd hf fun config compilation hc _ hcode => ?_
  refine (agrees_compileExecutable hcode _).bind fun artifacts ha => ?_
  subst ha
  refine .bind (.say fun _ _ h => h.ok (by decide +kernel) hc.code.clear_text) fun _ _ => ?_
  refine .bind (.say fun _ _ h => h.ok (by decide +kernel) hc.executable.clear_text) fun _ _ => ?_
  have front : Text.Clear "\nBuild completed in " := by decide +kernel
  have back : Text.Clear "ms" := by decide +kernel
  refine Agrees.shell.bind fun sh _ => .bind (.line ?_) fun _ _ => .pure trivial
  exact (front.append (Text.printable_int _).clear).append back

/-- **A run looks the same.** -/
theorem agreesOn_run : AgreesOn styled bare (fun _ => True) (run dir file) := by
  refine agreesOn_loaded_bind h hs hd hf fun config compilation hc ht hcode => ?_
  refine (agrees_printTree ht).bind fun _ _ => (agrees_execute hcode _).bind fun ran hr => ?_
  obtain ⟨artifacts, output⟩ := ran
  have result : Text.Clear (config.out.join "result.txt").text := (hc.out.join (by decide +kernel)).clear_text
  have front : Text.Clear "\n(Output saved to '" := by decide +kernel
  have back : Text.Clear "')" := by decide +kernel
  refine .bind (.writeFile hr.2) fun _ _ => ?_
  refine .bind (.say fun _ _ h => h.heading (by decide +kernel)) fun _ _ => .bind (.write hr.2) fun _ _ => ?_
  refine .bind (.line ((front.append result).append back)) fun _ _ => ?_
  exact .bind (.say fun _ _ h => h.rule) fun _ _ => .pure trivial

end Commands

end Project

/-! ## The command line -/

namespace CommandLine

open Command Project

theorem agrees_report {e : Failure} (he : e.Clear) : Agrees (fun _ => True) (report e) := by
  cases e with
  | tool e => exact .bind (.say fun _ _ h => h.fail he.1 he.2) fun _ _ => .pure trivial
  | compile e => exact .bind (.say fun _ _ h => h.fail he (by decide +kernel)) fun _ _ => .pure trivial
  | config e =>
    refine Agrees.shell.bind fun sh hm => .bind (.say fun _ _ h => ?_) fun _ _ => .pure trivial
    exact h.fail (he _ hm.words) (by decide +kernel)
  | file fault => exact .throw trivial
  | noRule e => exact .throw trivial

variable {templates : List Path} {dir : Path} {args : List String} {styled bare : Workspace}

theorem clear_help : Text.Clear help := by
  -- the pieces of the text, from the last one to the first
  iterate 10 refine .append ?_ (Text.lacks_ofList (by decide +kernel))
  exact Text.lacks_ofList (by decide +kernel)

/-- A command that ends with a status. -/
theorem agreesOn_status {α : Type} {x : Command α} (status : Nat)
    (h : AgreesOn styled bare (fun _ => True) x) :
    AgreesOn styled bare (fun _ => True) (do let _ ← x; return status : Command Nat) :=
  h.bind fun _ _ => .pure trivial

theorem agreesOn_dispatch (h : styled.Twin bare) (ht : ∀ p ∈ templates, p.Clear)
    (hd : dir.Clear) (ha : ∀ arg ∈ args, Text.Clear arg)
    (hs : Settings.ClearIn bare.files dir) :
    AgreesOn styled bare (fun _ => True) (dispatch templates dir args) := by
  have file : ∀ text ∈ args[1]?, Text.Clear text :=
    fun text hm => ha text (List.mem_of_getElem? hm)
  have status (n : Nat) {text : Console → Console}
      (h : ∀ styled bare : Console, styled.Twin bare → (text styled).Twin (text bare)) :
      Agrees (fun _ => True) (do say text; return n) := .bind (.say h) fun _ _ => .pure trivial
  have help : ∀ styled bare : Console, styled.Twin bare → (styled.line help).Twin (bare.line help) :=
    fun _ _ h => h.line (.of_clear clear_help)
  unfold dispatch
  split
  · exact agreesOn_status 0 (agrees_create ht file hd _ _ h)
  · exact agreesOn_status 0 (agreesOn_run h hs hd file)
  · exact agreesOn_status 0 (agreesOn_build h hs hd file)
  · exact agreesOn_status 0 (agreesOn_tree h hs hd file)
  · exact agreesOn_status 0 (agreesOn_emit h hs hd file)
  · exact status 0 help _ _ h
  · exact status 0 help _ _ h
  · exact status 0 help _ _ h
  · exact status 0 help _ _ h
  · next name _ _ _ _ _ _ _ _ hn =>
    have quoted : Text.Clear ("Unknown command: \"" ++ name ++ "\"") :=
      isControl_escape.quoted (ha name (List.mem_of_head? hn)) (by decide +kernel) (by decide +kernel)
    have fails := Agrees.say fun _ _ h => Console.Twin.fail h quoted (show Text.Clear "" by decide +kernel)
    exact fails.bind (fun _ _ => status 1 fun _ _ h => h.line (.of_clear (by decide +kernel))) _ _ h

/-- **The command line looks the same.** It ends with one status, or one failure of files, and what it
printed shows the same. -/
theorem agreesOn_perform (h : styled.Twin bare) (ht : ∀ p ∈ templates, p.Clear)
    (hd : dir.Clear) (ha : ∀ arg ∈ args, Text.Clear arg)
    (hs : Settings.ClearIn bare.files dir) :
    AgreesOn styled bare (fun _ => True) (perform templates dir args) := by
  rw [AgreesOn, perform_eq, perform_eq]
  have together := agreesOn_dispatch h ht hd ha hs
  unfold AgreesOn at together
  generalize dispatch templates dir args styled = first, dispatch templates dir args bare = second
    at together
  cases together with
  | ok h => exact .ok h trivial
  | error h he => exact agrees_report he _ _ h

end CommandLine

end IntLang
