import IntLang.Project.Create
import IntLang.Proofs.Project.Agreement

/-!
# How commands end

A command says nothing on the second stream, and where it fails there is a reason: the project, its
source, a tool, or one of the file operations that the command carries out.

* `FileFails`: the file operations of all commands, and how they fail;
* `Command.Ends`: a command is quiet and fails for a reason; one lemma for each part that commands are
  made of;
* `ends_create`, `ends_tree`, `ends_emit`, `ends_build`, `ends_run`: the commands.
-/

namespace IntLang

/-! ## Endings of commands -/

/-- Nothing was written on the second stream, and the machine is the same. -/
structure Workspace.Quiet (w w' : Workspace) : Prop where
  err : w'.console.err = w.console.err
  color : w'.console.color = w.console.color
  machine : w'.shell.machine = w.shell.machine

/-- Directories cannot be made, which leaves these files. -/
def Machine.DirsFail (m : Machine) (names : List UnitText) (files : FileTree) (fault : FileFault) : Prop :=
  ∃ before, m.makeDirs names before = (some fault, files)

/-- A step of copying a template fails on the files at hand: one for the directory itself, or one for an entry
of it. Where directories are as deep in each other as they may be, the next one fails. -/
inductive CopyFails (m : Machine) (name : String) (files : FileTree) : Nat → Path → Path → FileFault → Prop
  | deep {src dest : Path} : CopyFails m name files 0 src dest .refused
  | makeDirs {depth : Nat} {src dest : Path} {fault : FileFault}
    (h : m.DirsFail dest.segments files fault) : CopyFails m name files (depth + 1) src dest fault
  | list {depth : Nat} {src dest : Path} {fault : FileFault} (h : files.list src = .error fault) :
    CopyFails m name files (depth + 1) src dest fault
  | read {depth : Nat} {src dest : Path} {fault : FileFault} {entry : UnitText}
    (h : files.read (src.join entry) = .error fault) : CopyFails m name files (depth + 1) src dest fault
  | write {depth : Nat} {src dest : Path} {fault : FileFault} {entry : UnitText} {text : String}
    (h : m.write (dest.join entry) (Template.fill name text) files = .error fault) :
    CopyFails m name files (depth + 1) src dest fault
  | inside {depth : Nat} {src dest : Path} {fault : FileFault} {entry : UnitText}
    (h : CopyFails m name files depth (src.join entry) (dest.join entry) fault) :
    CopyFails m name files (depth + 1) src dest fault

/-- Which file operation of a command fails: one of a build or a run that starts in the workspace `w`, or
one of copying the template. The files are those at the time of the failure. -/
inductive FileFails (templates : List Path) (dir : Path) (arg : Option String) (w : Workspace)
    (files : FileTree) : FileFault → Prop
  | source {c : Config} {fault : FileFault} (hc : Config.load w.files dir arg = .ok c)
    (h : w.files.read c.entry = .error fault) : FileFails templates dir arg w files fault
  | code {c : Config} {compilation : Compilation} {fault : FileFault}
    (hl : Project.load w.files dir arg = .ok (c, compilation))
    (h : c.job.place w.shell.machine compilation.codeText w.files = (some fault, files)) :
    FileFails templates dir arg w files fault
  | result {c : Config} {compilation : Compilation} {fault : FileFault}
    (hl : Project.load w.files dir arg = .ok (c, compilation))
    (h : w.shell.machine.write c.result (w.shell.result 1).out files = .error fault) :
    FileFails templates dir arg w files fault
  | copy {src : Path} {fault : FileFault} (ht : templates.find? w.files.exists = some src)
    (h : CopyFails w.shell.machine (arg.getD Project.defaultName) files (w.shell.machine.deepest + 1) src
      (dir.join (arg.getD Project.defaultName)) fault) :
    FileFails templates dir arg w files fault

/-- Why a command fails that starts in the workspace `w` and leaves some files behind: the project is at
fault, its source is refused, a tool fails, or a file operation does. -/
inductive Reason (templates : List Path) (dir : Path) (arg : Option String) (w : Workspace) :
    Failure → FileTree → Prop
  | config (e : ConfigError) (files : FileTree) : Reason templates dir arg w (.config e) files
  | compile {e : CompileError} {files : FileTree}
    (h : Project.LoadFails w.files dir arg (.compile e)) : Reason templates dir arg w (.compile e) files
  | tool {e : ToolFailure} {n : Nat} {files : FileTree} (hx : (w.shell.result n).exitCode ≠ some 0)
    (hd : e.details = (w.shell.result n).err) : Reason templates dir arg w (.tool e) files
  | file {fault : FileFault} {files : FileTree} (h : FileFails templates dir arg w files fault) :
    Reason templates dir arg w (.file fault) files

namespace Workspace.Quiet

variable {w w' w'' : Workspace}

theorem refl (w : Workspace) : w.Quiet w := ⟨rfl, rfl, rfl⟩

theorem trans (h : w.Quiet w') (h' : w'.Quiet w'') : w.Quiet w'' :=
  ⟨h'.err.trans h.err, h'.color.trans h.color, h'.machine.trans h.machine⟩

theorem of_write {text : String} (h : w'.console = w.console.write text)
    (hm : w'.shell.machine = w.shell.machine) : w.Quiet w' :=
  ⟨by rw [h]; rfl, by rw [h]; rfl, hm⟩

end Workspace.Quiet

namespace Command

open Workspace (Quiet)

variable {α β : Type} {P : Failure → FileTree → Prop} {w w' : Workspace}

/-- A command says nothing on the second stream. Where it fails, it fails for a reason `P`, which may
depend on the files that it leaves behind. -/
structure Ends (P : Failure → FileTree → Prop) (x : Command α) (w : Workspace) : Prop where
  quiet : w.Quiet (x.after w)
  fails : ∀ e w', x w = .error e w' → P e w'.files

theorem ends_of_ok {x : Command α} {a : α} (h : x w = .ok a w') (hq : w.Quiet w') : Ends P x w := by
  refine ⟨by rwa [after, h], fun e w' he => ?_⟩
  rw [h] at he
  cases he

theorem ends_of_error {x : Command α} {e : Failure} (h : x w = .error e w') (hq : w.Quiet w')
    (hp : P e w'.files) : Ends P x w := by
  refine ⟨by rwa [after, h], fun e w' he => ?_⟩
  rw [h] at he
  cases he
  exact hp

theorem Ends.pure (a : α) : Ends P (Pure.pure a) w :=
  have step : (Pure.pure a : Command α) w = .ok a w := rfl
  ends_of_ok step (.refl w)

theorem Ends.throw {e : Failure} (h : P e w.files) : Ends P (MonadExcept.throw e : Command α) w :=
  have step : (MonadExcept.throw e : Command α) w = .error e w := rfl
  ends_of_error step (.refl w) h

/-- What comes behind starts on the same machine. -/
theorem Ends.bind {x : Command α} {f : α → Command β} (hx : Ends P x w)
    (hf : ∀ a w', x w = .ok a w' → w'.shell.machine = w.shell.machine → Ends P (f a) w') :
    Ends P (x >>= f) w := by
  have quiet := hx.quiet
  rw [after] at quiet
  cases h : x w with
  | ok a w' =>
    rw [h] at quiet
    have ends := hf a w' h quiet.machine
    have step : (x >>= f) w = f a w' := by rw [bind_eq, h]
    refine ⟨?_, fun e w'' he => ends.fails e w'' (step.symm.trans he)⟩
    rw [after, step]
    exact quiet.trans ends.quiet
  | error e w' =>
    rw [h] at quiet
    exact ends_of_error (by rw [bind_eq, h]) quiet (hx.fails e w' h)

theorem Ends.files : Ends P Command.files w := ends_of_ok (files_eq w) (.refl w)

theorem Ends.ask {operation : FileTree → Except FileFault α}
    (h : ∀ fault, operation w.files = .error fault → P (.file fault) w.files) :
    Ends P (Command.ask operation) w := by
  have step := ask_eq operation w
  cases ho : operation w.files with
  | ok a =>
    rw [ho] at step
    exact ends_of_ok step (.refl w)
  | error fault =>
    rw [ho] at step
    exact ends_of_error step (.refl w) (h fault ho)

theorem Ends.write {p : Path} {text : String}
    (h : ∀ fault, w.shell.machine.write p text w.files = .error fault → P (.file fault) w.files) :
    Ends P (Command.write p text) w := by
  have step := write_eq p text w
  cases hf : w.shell.machine.write p text w.files with
  | ok files =>
    rw [hf] at step
    exact ends_of_ok step ⟨rfl, rfl, rfl⟩
  | error fault =>
    rw [hf] at step
    exact ends_of_error step (.refl w) (h fault hf)

theorem Ends.makeDirs {names : List UnitText}
    (h : ∀ fault files, w.shell.machine.DirsFail names files fault → P (.file fault) files) :
    Ends P (Command.makeDirs names) w := by
  have step := makeDirs_eq names w
  rcases hf : w.shell.machine.makeDirs names w.files with ⟨_ | fault, files⟩
  · rw [hf] at step
    exact ends_of_ok step ⟨rfl, rfl, rfl⟩
  · rw [hf] at step
    exact ends_of_error step ⟨rfl, rfl, rfl⟩ (h fault files ⟨w.files, hf⟩)

theorem Ends.say {text : Console → Console} (h : ∀ c, ∃ printed, text c = c.write printed) :
    Ends P (Command.say text) w := by
  obtain ⟨printed, hc⟩ := h w.console
  have step : Command.say text w = .ok () { w with console := text w.console } := rfl
  exact ends_of_ok step (.of_write hc rfl)

theorem Ends.mono {Q : Failure → FileTree → Prop} {x : Command α} (h : Ends P x w)
    (hq : ∀ e files, P e files → Q e files) : Ends Q x w :=
  ⟨h.quiet, fun e w' he => hq _ _ (h.fails e w' he)⟩

end Command

/-! ## Creating projects -/

namespace Project

open Command

/-- A step of copying fails. -/
def Uncopied (m : Machine) (name : String) (depth : Nat) (src dest : Path) (e : Failure)
    (files : FileTree) : Prop :=
  ∃ fault, e = .file fault ∧ CopyFails m name files depth src dest fault

section Copy

variable {m : Machine} (name : String) {depth : Nat} {copy : Path → Path → Command (List Path)}
  {src dest : Path} (hc : ∀ entry w, w.shell.machine = m →
    Ends (Uncopied m name depth (src.join entry) (dest.join entry))
      (copy (src.join entry) (dest.join entry)) w)

include hc

theorem ends_copyEntry (entry : UnitText × Bool) (w : Workspace) (hm : w.shell.machine = m) :
    Ends (Uncopied m name (depth + 1) src dest) (copyEntry name copy src dest entry) w := by
  obtain ⟨entry, _ | _⟩ := entry
  · rw [copyEntry]
    split
    · exact .pure _
    refine (Ends.ask fun fault h => ⟨fault, rfl, .read h⟩).bind fun text w' _ hm' => ?_
    have written : Ends (Uncopied m name (depth + 1) src dest)
        (Command.write (dest.join entry) (Template.fill name text)) w' :=
      .write fun fault h => ⟨fault, rfl, .write ((hm'.trans hm) ▸ h)⟩
    exact written.bind fun _ _ _ _ => .pure _
  · rw [copyEntry]
    refine (hc entry w hm).mono ?_
    rintro e files ⟨fault, rfl, h⟩
    exact ⟨fault, rfl, .inside h⟩

theorem ends_copyEntries (entries : List (UnitText × Bool)) (w : Workspace)
    (hm : w.shell.machine = m) :
    Ends (Uncopied m name (depth + 1) src dest) (copyEntries name copy src dest entries) w := by
  induction entries generalizing w with
  | nil => exact .pure _
  | cons entry entries ih =>
    rw [copyEntries]
    refine (ends_copyEntry name hc entry w hm).bind fun written w' _ hm' => ?_
    exact (ih w' (hm'.trans hm)).bind fun _ _ _ _ => .pure _

end Copy

/-- **A copy fails with one of its steps.** -/
theorem ends_copyTemplate {m : Machine} (name : String) (depth : Nat) (src dest : Path) (w : Workspace)
    (hm : w.shell.machine = m) :
    Ends (Uncopied m name depth src dest) (copyTemplate name depth src dest) w := by
  induction depth generalizing src dest w with
  | zero => exact .throw ⟨_, rfl, .deep⟩
  | succ depth ih =>
    rw [copyTemplate]
    have made : Ends (Uncopied m name (depth + 1) src dest) (Command.makeDirs dest.segments) w :=
      .makeDirs fun fault files h => ⟨fault, rfl, .makeDirs (hm ▸ h)⟩
    refine made.bind fun _ w' _ hm' => ?_
    refine (Ends.ask fun fault h => ⟨fault, rfl, .list h⟩).bind fun entries w'' _ hm'' => ?_
    exact ends_copyEntries name (fun entry w hm => ih _ _ w hm) entries w''
      (hm''.trans (hm'.trans hm))

/-- **Creating a project fails for a reason**, whatever the template holds. -/
theorem ends_create (templates : List Path) (arg : Option String) (dir : Path) (w : Workspace) :
    Ends (Reason templates dir arg w) (create templates arg dir) w := by
  unfold create
  refine Ends.bind (ends_of_ok (files_eq w) (.refl w)) fun files w' hw _ => ?_
  obtain ⟨rfl, rfl⟩ := EStateM.Result.ok.inj hw
  dsimp only
  split
  · exact .bind (.throw (.config _ _)) fun _ _ h => nomatch h
  have found := findTemplate_eq templates w
  cases ht : templates.find? w.files.exists with
  | none =>
    rw [ht] at found
    exact Ends.bind (ends_of_error found (.refl w) (.config _ _)) fun _ _ h => nomatch found.symm.trans h
  | some src =>
    rw [ht] at found
    refine Ends.bind (ends_of_ok found (.refl w)) fun src' w' hs _ => ?_
    obtain ⟨rfl, rfl⟩ := EStateM.Result.ok.inj (found.symm.trans hs)
    refine Ends.bind (ends_of_ok (shell_eq w) (.refl w)) fun sh w' hs _ => ?_
    obtain ⟨rfl, rfl⟩ := EStateM.Result.ok.inj hs
    have copied := (ends_copyTemplate (arg.getD defaultName) (w.shell.machine.deepest + 1) src
      (dir.join (arg.getD defaultName)) w rfl).mono (Q := Reason templates dir arg w) (by
        rintro e files ⟨fault, rfl, h⟩
        exact .file (.copy ht h))
    refine copied.bind fun written w _ _ => ?_
    refine (Ends.say fun c => ⟨_, rfl⟩).bind fun _ w _ _ => ?_
    refine (Ends.say fun c => ⟨_, rfl⟩).bind fun _ w _ _ => ?_
    exact (Ends.say fun c => ⟨_, rfl⟩).bind fun _ w _ _ => .pure _

/-! ## Commands on a project -/

section Commands

variable {templates : List Path} {dir : Path} {arg : Option String} {w : Workspace}

theorem reason_of_loadFails {e : Failure} (h : LoadFails w.files dir arg e) :
    Reason templates dir arg w e w.files := by
  cases h with
  | settings h => exact .config _ _
  | missing hc h => exact .config _ _
  | unreadable hc hx h => exact .file (.source hc h)
  | refused hc hr h => exact .compile (.refused hc hr h)

theorem ends_tree : Ends (Reason templates dir arg w) (tree dir arg) w := by
  have step := tree_eq dir arg w
  cases h : load w.files dir arg with
  | error e =>
    rw [h] at step
    exact ends_of_error step (.refl w) (reason_of_loadFails (loadFails_iff.mpr h))
  | ok project =>
    rw [h] at step
    exact ends_of_ok step (.of_write (withTree_eq _ _) rfl)

theorem ends_emit : Ends (Reason templates dir arg w) (emit dir arg) w := by
  have step := emit_eq dir arg w
  cases h : load w.files dir arg with
  | error e =>
    rw [h] at step
    exact ends_of_error step (.refl w) (reason_of_loadFails (loadFails_iff.mpr h))
  | ok project =>
    rw [h] at step
    exact ends_of_ok step (.of_write rfl rfl)

theorem ends_build : Ends (Reason templates dir arg w) (build dir arg) w := by
  cases h : load w.files dir arg with
  | error e =>
    have fails := loadFails_iff.mpr h
    exact ends_of_error (build_of_loadFails fails) (.refl w) (reason_of_loadFails fails)
  | ok project =>
    have step := build_eq h
    rcases hp : project.1.job.place w.shell.machine project.2.codeText w.files with ⟨_ | fault, files⟩
    · rw [hp] at step
      dsimp only at step
      split at step
      · exact ends_of_ok step (.of_write (withBuild_eq _ _ _) rfl)
      · next hx => exact ends_of_error step ⟨rfl, rfl, rfl⟩ (.tool hx rfl)
    · rw [hp] at step
      exact ends_of_error step ⟨rfl, rfl, rfl⟩ (.file (.code h hp))

theorem ends_run : Ends (Reason templates dir arg w) (run dir arg) w := by
  cases h : load w.files dir arg with
  | error e =>
    have fails := loadFails_iff.mpr h
    exact ends_of_error (run_of_loadFails fails) (.refl w) (reason_of_loadFails fails)
  | ok project =>
    have step := run_eq h
    have tree : w.Quiet { w with console := withTree project.2.treeText w.console } :=
      .of_write (withTree_eq _ _) rfl
    rcases hp : project.1.job.place w.shell.machine project.2.codeText w.files with ⟨_ | fault, files⟩
    · rw [hp] at step
      dsimp only at step
      split at step
      · next hc =>
        split at step
        · next hx =>
          split at step
          · obtain ⟨printed, out⟩ := withOutput_eq project.1.result (w.shell.result 1).out
              (withTree project.2.treeText w.console)
            refine ends_of_ok step (tree.trans (.of_write out rfl))
          · next hw => exact ends_of_error step ⟨tree.err, tree.color, rfl⟩ (.file (.result h hw))
        · next hx => exact ends_of_error step ⟨tree.err, tree.color, rfl⟩ (.tool hx rfl)
      · next hc => exact ends_of_error step ⟨tree.err, tree.color, rfl⟩ (.tool hc rfl)
    · rw [hp] at step
      exact ends_of_error step ⟨tree.err, tree.color, rfl⟩ (.file (.code h hp))

end Commands

end Project

end IntLang
