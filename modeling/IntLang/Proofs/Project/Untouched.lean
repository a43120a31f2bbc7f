import IntLang.CommandLine
import IntLang.Proofs.Project.Steps

/-!
# What a failure leaves untouched

Where a project cannot be loaded, a command stops before it has any effect; on the command line, the
failure is then reported on the second stream. The two commands that only print have no other effect
anyway.

* `perform_eq`: the command line reports the failures of its commands;
* `loadFails_of_build`, `loadFails_of_run`: which failures come from loading;
* **`effects_follow_loading`**: these facts together, for every command on a project.
-/

namespace IntLang

open Command

/-! ## Consoles -/

theorem Console.out_fail (c : Console) (message details : String) :
    (c.fail message details).out = c.out := by
  have out_foldl (lines : List String) (c : Console) :
      (lines.foldl (fun c line => c.warn (c.paint .dim ("  " ++ line))) c).out = c.out := by
    induction lines generalizing c with
    | nil => rfl
    | cons line lines ih => exact ih (c.warn (c.paint .dim ("  " ++ line)))
  exact out_foldl _ _

namespace Workspace

variable {w w' w'' : Workspace}

theorem Untouched.refl (w : Workspace) : w.Untouched w := ⟨⟨rfl, rfl⟩, rfl⟩

theorem Still.trans (h : w.Still w') (h' : w'.Still w'') : w.Still w'' :=
  ⟨h'.files.trans h.files, h'.shell.trans h.shell⟩

theorem Untouched.trans (h : w.Untouched w') (h' : w'.Untouched w'') : w.Untouched w'' :=
  ⟨h.toStill.trans h'.toStill, h'.out.trans h.out⟩

end Workspace

/-! ## The command line -/

namespace CommandLine

variable {templates : List Path} {dir : Path} {args : List String} {w : Workspace}

/-- A failure is reported on the second stream. -/
theorem untouched_report (e : Failure) (w : Workspace) : w.Untouched ((report e).after w) := by
  cases e with
  | tool e => exact ⟨⟨rfl, rfl⟩, w.console.out_fail e.message e.details⟩
  | compile e => exact ⟨⟨rfl, rfl⟩, w.console.out_fail e.message ""⟩
  | config e => exact ⟨⟨rfl, rfl⟩, w.console.out_fail (e.message w.shell.machine.words) ""⟩
  | file e => exact .refl w
  | noRule e => exact .refl w

theorem perform_eq (templates : List Path) (dir : Path) (args : List String) (w : Workspace) :
    perform templates dir args w =
      match dispatch templates dir args w with
      | .ok status w' => .ok status w'
      | .error e w' => report e w' := by
  have h : perform templates dir args w = EStateM.tryCatch (dispatch templates dir args) report w := rfl
  rw [h, EStateM.tryCatch]
  cases dispatch templates dir args w <;> rfl

theorem untouched_perform (templates : List Path) (dir : Path) (args : List String)
    (w : Workspace) :
    ((dispatch templates dir args).after w).Untouched ((perform templates dir args).after w) := by
  rw [after, after, perform_eq]
  cases dispatch templates dir args w with
  | ok status w' => exact .refl w'
  | error e w' => exact untouched_report e w'

/-- A command that ends with a status leaves behind what it did before. -/
theorem after_bind_pure {α : Type} (x : Command α) (status : Nat) (w : Workspace) :
    (do let _ ← x; return status : Command Nat).after w = x.after w := by
  rw [after, after, bind_eq]
  cases x w <;> rfl

/-- The commands that only print, on the command line. -/
theorem still_perform (h : args.head? = some "tree" ∨ args.head? = some "emit") :
    w.Still ((perform templates dir args).after w) := by
  refine .trans ?_ (untouched_perform templates dir args w).toStill
  obtain h | h := h
  · have hd : (dispatch templates dir args).after w = (Project.tree dir args[1]?).after w := by
      rw [dispatch, h]
      exact after_bind_pure _ 0 w
    rw [hd]
    exact Project.still_tree dir args[1]? w
  · have hd : (dispatch templates dir args).after w = (Project.emit dir args[1]?).after w := by
      rw [dispatch, h]
      exact after_bind_pure _ 0 w
    rw [hd]
    exact Project.still_emit dir args[1]? w

/-- A project that cannot be loaded, on the command line. -/
theorem untouched_perform_of_loadFails {e : Failure}
    (h : args.head? = some "build" ∨ args.head? = some "run")
    (hl : Project.LoadFails w.files dir args[1]? e) :
    w.Untouched ((perform templates dir args).after w) := by
  refine .trans ?_ (untouched_perform templates dir args w)
  obtain h | h := h
  · have hd : (dispatch templates dir args).after w = (Project.build dir args[1]?).after w := by
      rw [dispatch, h]
      exact after_bind_pure _ 0 w
    rw [hd, after_of_error (Project.build_of_loadFails hl)]
    exact .refl w
  · have hd : (dispatch templates dir args).after w = (Project.run dir args[1]?).after w := by
      rw [dispatch, h]
      exact after_bind_pure _ 0 w
    rw [hd, after_of_error (Project.run_of_loadFails hl)]
    exact .refl w

end CommandLine

/-! ## Loading -/

namespace Project

variable {dir : Path} {file : Option String} {w w' : Workspace} {e : Failure}

/-- The source of a project or its configuration is at fault, and not a tool or another file. -/
inductive BlamesSource : Failure → Prop
  | config (e : ConfigError) : BlamesSource (.config e)
  | compile (e : CompileError) : BlamesSource (.compile e)

/-- What fails with its project loaded has no part in this. -/
theorem loadFails_of_loaded {α : Type} {f : Config × Compilation → Command α}
    (h : (loaded dir file >>= f) w = .error e w')
    (hf : ∀ project, load w.files dir file ≠ .ok project) : LoadFails w.files dir file e ∧ w' = w := by
  rw [loaded_bind_eq] at h
  cases hl : load w.files dir file with
  | ok project => exact absurd hl (hf project)
  | error failure =>
    rw [hl] at h
    cases h
    exact ⟨loadFails_iff.mpr hl, rfl⟩

/-- **No step behind loading blames the source.** -/
theorem loadFails_of_build (hb : build dir file w = .error e w') (he : BlamesSource e) :
    LoadFails w.files dir file e ∧ w' = w := by
  refine loadFails_of_loaded hb fun project hl => ?_
  rw [build_eq hl] at hb
  repeat' split at hb
  all_goals cases hb <;> cases he

theorem loadFails_of_run (hr : run dir file w = .error e w') (he : BlamesSource e) :
    LoadFails w.files dir file e ∧ w' = w := by
  refine loadFails_of_loaded hr fun project hl => ?_
  rw [run_eq hl] at hr
  dsimp only at hr
  repeat' split at hr
  all_goals cases hr <;> cases he

/-- **All effects follow loading.** The commands that only print change no file and start no process.
Where a project cannot be loaded, a build and a run fail for that reason and leave everything as it is;
on the command line, at most the second stream is written to. -/
theorem effects_follow_loading (templates : List Path) (dir : Path) (file : Option String)
    (args : List String) (w : Workspace) :
    (w.Still ((tree dir file).after w) ∧ w.Still ((emit dir file).after w)) ∧
    (∀ e, LoadFails w.files dir file e →
      build dir file w = .error e w ∧ run dir file w = .error e w) ∧
    (∀ e w', BlamesSource e → build dir file w = .error e w' ∨ run dir file w = .error e w' →
      LoadFails w.files dir file e ∧ w' = w) ∧
    (args.head? = some "tree" ∨ args.head? = some "emit" →
      w.Still ((CommandLine.perform templates dir args).after w)) ∧
    (args.head? = some "build" ∨ args.head? = some "run" →
      ∀ e, LoadFails w.files dir args[1]? e →
        w.Untouched ((CommandLine.perform templates dir args).after w)) := by
  refine ⟨⟨still_tree dir file w, still_emit dir file w⟩, ?_, ?_, ?_, ?_⟩
  · exact fun e h => ⟨build_of_loadFails h, run_of_loadFails h⟩
  · rintro e w' he (hb | hr)
    · exact loadFails_of_build hb he
    · exact loadFails_of_run hr he
  · exact CommandLine.still_perform
  · exact fun h e hl => CommandLine.untouched_perform_of_loadFails h hl

end Project

end IntLang
