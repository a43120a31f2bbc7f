import IntLang.Project.Build
import IntLang.Project.Create

/-!
# Commands, one step at a time

* `Command.bind_eq`: a command goes on from what the one in front leaves, or fails with it;
* `Command.write_eq`, `Command.makeDirs_eq`, `Command.start_eq`: the steps that change more than the
  console;
* `Project.loaded_bind_eq`, `Project.findTemplate_eq`: what stands behind loading, and where a template is.
-/

namespace IntLang

/-! ## Processes -/

namespace Shell

/-- How the process after `n` others will end. -/
def outcome (sh : Shell) (n : Nat) : Outcome := sh.script.getD n .success

def result (sh : Shell) (n : Nat) : ProcessResult := (sh.outcome n).result

/-- What the process after `n` others does to the files. -/
def touch (sh : Shell) (n : Nat) (call : List UnitText) (files : FileTree) : FileTree :=
  sh.machine.touch call (sh.outcome n) files

/-- The shell behind some calls. -/
def behind (sh : Shell) (calls : List (List UnitText)) : Shell :=
  { sh with script := sh.script.drop calls.length, calls := sh.calls ++ calls }

@[simp] theorem machine_behind (sh : Shell) (calls : List (List UnitText)) :
    (sh.behind calls).machine = sh.machine := rfl

@[simp] theorem behind_behind (sh : Shell) (calls more : List (List UnitText)) :
    (sh.behind calls).behind more = sh.behind (calls ++ more) := by
  simp [behind]

@[simp] theorem outcome_behind (sh : Shell) (calls : List (List UnitText)) (n : Nat) :
    (sh.behind calls).outcome n = sh.outcome (calls.length + n) := by
  simp [behind, outcome, List.getD_eq_getElem?_getD]

@[simp] theorem touch_behind (sh : Shell) (calls : List (List UnitText)) (n : Nat)
    (call : List UnitText) (files : FileTree) :
    (sh.behind calls).touch n call files = sh.touch (calls.length + n) call files := by
  simp [touch]

@[simp] theorem result_behind (sh : Shell) (calls : List (List UnitText)) (n : Nat) :
    (sh.behind calls).result n = sh.result (calls.length + n) := by
  simp [result]

end Shell

/-! ## Steps -/

namespace Command

variable {α β : Type}

/-- The workspace that a command leaves behind, failed or not. -/
def after (x : Command α) (w : Workspace) : Workspace :=
  match x w with
  | .ok _ w' => w'
  | .error _ w' => w'

theorem after_of_error {x : Command α} {w w' : Workspace} {e : Failure} (h : x w = .error e w') :
    x.after w = w' := by
  rw [after, h]

/-- The failure of files that a command ends in. -/
def fault? (x : Command α) (w : Workspace) : Option FileFault :=
  match x w with
  | .error (.file e) _ => some e
  | _ => none

theorem eq_error_of_fault? {x : Command α} {w : Workspace} {e : FileFault} (h : x.fault? w = some e) :
    x w = .error (.file e) (x.after w) := by
  unfold fault? at h
  unfold after
  split at h
  · next hx =>
    cases h
    rw [hx]
  · cases h

theorem bind_eq (x : Command α) (f : α → Command β) (w : Workspace) :
    (x >>= f) w =
      match x w with
      | .ok a w' => f a w'
      | .error e w' => .error e w' := by
  simp only [Bind.bind, EStateM.bind]
  cases x w <;> rfl

theorem files_eq (w : Workspace) : Command.files w = .ok w.files w := rfl

theorem shell_eq (w : Workspace) : Command.shell w = .ok w.shell w := rfl

theorem ask_eq {α : Type} (operation : FileTree → Except FileFault α) (w : Workspace) :
    ask operation w =
      match operation w.files with
      | .ok a => .ok a w
      | .error e => .error (.file e) w := by
  have h : ask operation w = (lift .file (operation w.files) : Command α) w := rfl
  rw [h]
  cases operation w.files <;> rfl

theorem change_eq (operation : FileTree → Except FileFault FileTree) (w : Workspace) :
    change operation w =
      match operation w.files with
      | .ok files => .ok () { w with files }
      | .error e => .error (.file e) w := by
  have h : change operation w =
      (lift .file (operation w.files) >>= fun files => set { w with files } : Command Unit) w := rfl
  rw [h]
  cases operation w.files <;> rfl

theorem write_eq (p : Path) (text : String) (w : Workspace) :
    Command.write p text w =
      match w.shell.machine.write p text w.files with
      | .ok files => .ok () { w with files }
      | .error e => .error (.file e) w :=
  change_eq _ w

theorem makeDirs_eq (names : List UnitText) (w : Workspace) :
    Command.makeDirs names w =
      match w.shell.machine.makeDirs names w.files with
      | (none, files) => .ok () { w with files }
      | (some e, files) => .error (.file e) { w with files } := by
  have h : Command.makeDirs names w = raise (w.shell.machine.makeDirs names w.files).1
      { w with files := (w.shell.machine.makeDirs names w.files).2 } := rfl
  rw [h]
  rcases w.shell.machine.makeDirs names w.files with ⟨_ | e, files⟩ <;> rfl

theorem start_eq (call : List UnitText) (w : Workspace) :
    start call w = .ok (w.shell.result 0) { w with
      files := w.shell.touch 0 call w.files
      shell := w.shell.behind [call] } := by
  obtain ⟨files, ⟨script, calls, machine, elapsed⟩, console⟩ := w
  cases script <;> rfl

end Command

/-! ## Loading -/

theorem Project.loaded_bind_eq {α : Type} (f : Config × Compilation → Command α) (dir : Path)
    (file : Option String) (w : Workspace) :
    (loaded dir file >>= f) w =
      match load w.files dir file with
      | .ok project => f project w
      | .error e => .error e w := by
  have h : (loaded dir file >>= f) w =
      (Command.lift id (load w.files dir file) >>= f) w := rfl
  rw [h]
  cases load w.files dir file <;> rfl

/-! ## Templates -/

theorem Project.findTemplate_eq (templates : List Path) (w : Workspace) :
    findTemplate templates w =
      match templates.find? w.files.exists with
      | some src => .ok src w
      | none => .error (.config (.templateNotFound templates)) w := by
  unfold findTemplate
  rw [Command.bind_eq, Command.files_eq]
  dsimp only
  cases templates.find? w.files.exists <;> rfl

end IntLang
