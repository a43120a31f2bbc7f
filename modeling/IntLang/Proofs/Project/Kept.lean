import IntLang.Proofs.Project.Commands
import IntLang.Proofs.Project.Machines

/-!
# Files that a command leaves alone

* `Command.Keeps`: a command leaves the files at certain places as they are, also where it fails, if the
  processes spare them that it starts; one lemma for each part that commands are made of;
* `keeps_compileExecutable`, `keeps_execute`: all files but the C text stay;
* `keeps_build`, `keeps_run`: the two commands on a project.
-/

namespace IntLang

namespace Command

variable {α β : Type} {kept : List UnitText → Prop}

/-- Between two workspaces, the files at the places `kept` stay as they are that processes spare. -/
structure Spared (kept : List UnitText → Prop) (w w' : Workspace) : Prop where
  files : w.files.Keeps (fun names => kept names ∧ w.shell.machine.Spares names) w'.files
  machine : w'.shell.machine = w.shell.machine

theorem Spared.refl (kept : List UnitText → Prop) (w : Workspace) : Spared kept w w :=
  ⟨.refl _ w.files, rfl⟩

theorem Spared.trans {w w' w'' : Workspace} (h : Spared kept w w') (h' : Spared kept w' w'') :
    Spared kept w w'' := by
  refine ⟨h.files.trans ?_, h'.machine.trans h.machine⟩
  rw [← h.machine]
  exact h'.files

/-- The files at the places `kept` stay as they are that processes spare, also where the command fails. -/
def Keeps (kept : List UnitText → Prop) (x : Command α) : Prop :=
  ∀ w : Workspace, Spared kept w (x.after w)

theorem Keeps.pure (a : α) : Keeps kept (Pure.pure a : Command α) := fun w => .refl kept w

theorem Keeps.throw (e : Failure) : Keeps kept (MonadExcept.throw e : Command α) :=
  fun w => .refl kept w

theorem Keeps.bind {x : Command α} {f : α → Command β} (hx : Keeps kept x) (hf : ∀ a, Keeps kept (f a)) :
    Keeps kept (x >>= f) := by
  intro w
  have hx := hx w
  rw [after] at hx ⊢
  rw [bind_eq]
  cases h : x w with
  | ok a w' =>
    rw [h] at hx
    exact hx.trans (hf a w')
  | error e w' =>
    rw [h] at hx
    exact hx

theorem Keeps.ite {c : Prop} [Decidable c] {x y : Command α} (hx : Keeps kept x) (hy : Keeps kept y) :
    Keeps kept (if c then x else y) := by
  split
  · exact hx
  · exact hy

theorem Keeps.mono {kept' : List UnitText → Prop} {x : Command α} (hx : Keeps kept x)
    (h : ∀ names, kept' names → kept names) : Keeps kept' x :=
  fun w => ⟨(hx w).files.mono fun names hn => ⟨h names hn.1, hn.2⟩, (hx w).machine⟩

theorem Keeps.get : Keeps kept (get : Command Workspace) := fun w => .refl kept w

theorem Keeps.files : Keeps kept Command.files := fun w => .refl kept w

theorem Keeps.say (text : Console → Console) : Keeps kept (say text) :=
  fun w => ⟨.refl _ w.files, rfl⟩

/-- A process keeps what it spares. -/
theorem Keeps.start (call : List UnitText) : Keeps kept (start call) := by
  intro w
  rw [after, start_eq]
  refine ⟨fun names text hk hf => ?_, rfl⟩
  rw [← FileTree.standing_eq_text] at hf ⊢
  exact (hk.2.touch call _ w.files).trans hf

theorem Keeps.write (p : Path) (text : String) : Keeps (· ≠ p.segments) (Command.write p text) := by
  intro w
  rw [after, write_eq]
  cases hw : w.shell.machine.write p text w.files with
  | ok files =>
    exact ⟨(FileTree.keeps_write (Machine.write_eq_ok.mp hw).1).mono fun names hn => hn.1, rfl⟩
  | error e => exact .refl _ w

/-- New directories concern no file. -/
theorem Keeps.makeDirs (names : List UnitText) : Keeps kept (Command.makeDirs names) := by
  intro w
  have keeps (files : FileTree) (grown : ∀ place, w.files.GrownAt names files place) :
      Spared kept w { w with files } := ⟨FileTree.keeps_of_grown _ grown, rfl⟩
  rw [after, makeDirs_eq]
  rcases hm : w.shell.machine.makeDirs names w.files with ⟨_ | e, files⟩
  all_goals exact keeps files (Machine.grownAt_makeDirs hm)

end Command

namespace Project

open Command

/-! ## Tools -/

theorem keeps_compileExecutable (code : String) (job : Job) :
    Keeps (· ≠ job.artifacts.code.segments) (compileExecutable code job) := by
  unfold compileExecutable
  refine Keeps.files.bind fun t => .ite ?_ ((Keeps.makeDirs _).bind fun _ => ?_)
  all_goals
    refine (Keeps.write _ _).bind fun _ => (Keeps.start _).bind fun result => ?_
    exact .ite ((Keeps.throw _).bind fun _ => .pure _) (.pure _)

theorem keeps_execute (code : String) (job : Job) :
    Keeps (· ≠ job.artifacts.code.segments) (execute code job) := by
  unfold execute
  refine (keeps_compileExecutable code job).bind fun artifacts => (Keeps.start _).bind fun result => ?_
  exact .ite ((Keeps.throw _).bind fun _ => .pure _) (.pure _)

/-! ## Commands -/

section Commands

variable {dir : Path} {file : Option String} {w : Workspace} {config : Config}
  {compilation : Compilation}

/-- The project that is loaded is the one that is configured. -/
theorem config_of_load {files : FileTree} (h : load files dir file = .ok (config, compilation)) :
    Config.load files dir file = .ok config := by
  obtain ⟨c, hc, h⟩ := exists_ok_of_bind h
  dsimp only at h
  split at h
  · obtain ⟨source, -, h⟩ := exists_ok_of_bind h
    obtain ⟨result, -, h⟩ := exists_ok_of_bind h
    cases h
    cases hl : Config.load files dir file with
    | error e => rw [hl] at hc; cases hc
    | ok c => rw [hl] at hc; cases hc; rfl
  · obtain ⟨-, h, -⟩ := exists_ok_of_bind h
    cases h

/-- A command on a project that cannot be loaded changes nothing. On any other it does what it does with
the configuration of the project. -/
theorem keeps_loaded_bind {α : Type} {kept : List UnitText → Prop}
    {f : Config × Compilation → Command α} (h : Config.load w.files dir file = .ok config)
    (hf : ∀ compilation, Keeps kept (f (config, compilation))) :
    Spared kept w ((loaded dir file >>= f).after w) := by
  rw [after, loaded_bind_eq]
  cases hp : load w.files dir file with
  | ok project =>
    obtain ⟨c, compilation⟩ := project
    obtain rfl := Except.ok.inj (h.symm.trans (config_of_load hp))
    exact hf compilation w
  | error e => exact .refl kept w

/-- **A build concerns no file but the C text**, and those that its compiler does not spare. -/
theorem keeps_build (h : Config.load w.files dir file = .ok config) :
    Spared (· ≠ config.job.artifacts.code.segments) w ((build dir file).after w) := by
  unfold build
  refine keeps_loaded_bind h fun compilation => ?_
  refine (keeps_compileExecutable _ _).bind fun artifacts => ?_
  refine (Keeps.say _).bind fun _ => (Keeps.say _).bind fun _ => Keeps.get.bind fun _ => ?_
  exact (Keeps.say _).bind fun _ => .pure _

theorem keeps_printTree (kept : List UnitText → Prop) (tree : String) : Keeps kept (printTree tree) :=
  (Keeps.say _).bind fun _ => .ite (.say _) ((Keeps.say _).bind fun _ => .say _)

/-- **A run concerns no file but the C text and the result**, and those that its processes do not spare. -/
theorem keeps_run (h : Config.load w.files dir file = .ok config) :
    Spared
      (fun names => names ≠ config.job.artifacts.code.segments ∧
        names ≠ (config.out.join "result.txt").segments)
      w ((run dir file).after w) := by
  unfold run
  refine keeps_loaded_bind h fun compilation => (keeps_printTree _ _).bind fun _ => ?_
  refine ((keeps_execute _ _).mono fun names hn => hn.1).bind fun result => ?_
  refine ((Keeps.write _ _).mono fun names hn => hn.2).bind fun _ => ?_
  exact (Keeps.say _).bind fun _ => (Keeps.say _).bind fun _ => (Keeps.say _).bind fun _ =>
    (Keeps.say _).bind fun _ => .pure _

end Commands

end Project

end IntLang
