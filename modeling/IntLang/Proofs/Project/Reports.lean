import IntLang.Proofs.Compilation.Messages
import IntLang.Proofs.Project.Endings
import IntLang.Proofs.Project.Untouched
import IntLang.Proofs.Text.Styles

/-!
# Exit status and reports

A command that succeeds writes nothing on the second stream. One that fails is reported there, with a
mark, a message and what the tool said, and its status is one; only failures of files are left to the
caller.

* `Excerpt`: the first lines of a text without the blanks that end it;
* `Console.err_fail`: what a failure adds to the second stream;
* `CommandLine.Ending`: all endings of the command line;
* **`perform_ends`**: there are no others.
-/

namespace IntLang

/-! ## Excerpts -/

/-- The first lines of a text without the blanks that end it: all lines, or eight. -/
inductive Excerpt : String → List String → Prop
  | empty : Excerpt "" []
  | lines {kept blanks : String} {lines more : List String} (hn : lines ≠ [])
    (hb : ∀ c ∈ blanks.toList, Text.isBlank c = true)
    (hk : ∀ c ∈ kept.toList.getLast?, Text.isBlank c = false)
    (hl : kept = Text.joined "\n" (lines ++ more)) (hf : ∀ line ∈ lines ++ more, '\n' ∉ line.toList)
    (h8 : lines.length = 8 ∨ lines.length < 8 ∧ more = []) : Excerpt (kept ++ blanks) lines

namespace Text

/-- Nothing but blanks is taken off the end of a text, and all of them. -/
theorem exists_trimEnd (s : String) : ∃ blanks, s = trimEnd s ++ blanks ∧
    (∀ c ∈ blanks.toList, isBlank c = true) ∧ ∀ c ∈ (trimEnd s).toList.getLast?, isBlank c = false := by
  refine ⟨String.ofList (s.toList.reverse.takeWhile isBlank).reverse, ?_, ?_, ?_⟩
  · rw [trimEnd, ← String.ofList_append, ← List.reverse_append, List.takeWhile_append_dropWhile,
      List.reverse_reverse, String.ofList_toList]
  · intro c hc
    rw [String.toList_ofList, List.mem_reverse] at hc
    exact List.mem_takeWhile_imp hc
  · intro c hc
    rw [trimEnd, String.toList_ofList, List.getLast?_reverse] at hc
    have front := List.head?_dropWhile_not isBlank s.toList.reverse
    rw [Option.mem_def.mp hc] at front
    exact front

end Text

namespace Console

variable {c : Console}

/-- **The lines of a report are an excerpt of what the tool said.** -/
theorem excerpt_detailLines (details : String) : Excerpt details (detailLines details) := by
  unfold detailLines
  split
  · next h =>
    rw [h]
    exact .empty
  · obtain ⟨blanks, hs, hb, hk⟩ := Text.exists_trimEnd details
    have pieces_ne : Text.pieces '\n' (Text.trimEnd details) ≠ [] := by
      simp [Text.pieces, Text.runs_ne_nil]
    have whole := Text.joined_pieces '\n' (Text.trimEnd details)
    have lines : ∀ line ∈ Text.pieces '\n' (Text.trimEnd details), '\n' ∉ line.toList := by
      intro line hm
      obtain ⟨run, hr, rfl⟩ := List.mem_map.mp hm
      rw [String.toList_ofList]
      exact Text.notMem_of_mem_runs hr
    generalize Text.pieces '\n' (Text.trimEnd details) = pieces at pieces_ne whole lines
    have split := List.take_append_drop 8 pieces
    nth_rewrite 1 [hs]
    refine .lines (by simpa using pieces_ne) hb hk (split.symm ▸ whole.symm) ?_ ?_
    · rw [split]
      exact lines
    · rw [List.length_take, List.drop_eq_nil_iff]
      omega

/-- What a report adds to the second stream: a line with a mark, and the lines of the excerpt. -/
def said (message : String) (lines : List String) : String :=
  "✗ " ++ message ++ "\n" ++ String.join (lines.map fun line => "  " ++ line ++ "\n")

theorem said_eq (message : String) (lines : List String) : said message lines =
    "✗" ++ (" " ++ message ++ "\n" ++ String.join (lines.map fun line => "  " ++ line ++ "\n")) := by
  have mark : "✗ " = "✗" ++ " " := rfl
  rw [said, mark]
  simp only [String.append_assoc]

theorem said_nil (message : String) : said message [] = "✗ " ++ message ++ "\n" := by
  rw [said, List.map_nil]
  exact String.append_empty

theorem detailLines_empty : detailLines "" = [] := rfl

theorem length_detailLines_le (details : String) : (detailLines details).length ≤ 8 := by
  unfold detailLines
  split
  · exact Nat.zero_le _
  · exact List.length_take_le _ _

theorem err_details (h : c.color = false) (lines : List String) :
    (lines.foldl (fun c line => c.warn (c.paint .dim ("  " ++ line))) c).err =
      c.err ++ String.join (lines.map fun line => "  " ++ line ++ "\n") := by
  induction lines generalizing c with
  | nil => exact String.append_empty.symm
  | cons line lines ih =>
    rw [List.foldl_cons, ih (by exact h), paint_of_color h, warn, List.map_cons, String.join_cons]
    simp only [String.append_assoc]

/-- **What a failure adds to the second stream.** -/
theorem err_fail (h : c.color = false) (message details : String) :
    (c.fail message details).err = c.err ++ said message (detailLines details) := by
  rw [fail, err_details (by exact h), paint_of_color h, warn, said]
  simp only [String.append_assoc]
  rfl

end Console

/-! ## The command line -/

namespace CommandLine

open Command Project

variable {templates : List Path} {dir : Path} {args : List String} {w w' : Workspace}

/-- What is reported, and with which lines: that there is no such command, or how one failed. -/
inductive Report (templates : List Path) (dir : Path) (args : List String) (w : Workspace) :
    String → List String → Prop
  | unknown {name : String} (h : args.head? = some name) :
    Report templates dir args w ("Unknown command: \"" ++ name ++ "\"") []
  | config {e : ConfigError} {w₁ : Workspace}
    (h : dispatch templates dir args w = .error (.config e) w₁) :
    Report templates dir args w (e.message w.shell.machine.words) []
  /-- The message of a source that is refused is one line. -/
  | compile {e : CompileError} {w₁ : Workspace}
    (h : dispatch templates dir args w = .error (.compile e) w₁)
    (hl : LoadFails w.files dir args[1]? (.compile e)) (hm : '\n' ∉ e.message.toList) :
    Report templates dir args w e.message []
  /-- A tool that fails is quoted. -/
  | tool {e : ToolFailure} {w₁ : Workspace} {n : Nat} {lines : List String}
    (h : dispatch templates dir args w = .error (.tool e) w₁)
    (hx : (w.shell.result n).exitCode ≠ some 0) (hd : e.details = (w.shell.result n).err)
    (hl : Excerpt e.details lines) : Report templates dir args w e.message lines

/-- All endings of the command line: success in silence, a report, or a failure of files. -/
inductive Ending (templates : List Path) (dir : Path) (args : List String) (w : Workspace) :
    EStateM.Result Failure Workspace Nat → Prop
  | done {w' : Workspace} (h : w'.console.err = w.console.err) : Ending templates dir args w (.ok 0 w')
  | reported {w' : Workspace} {message : String} {lines : List String}
    (r : Report templates dir args w message lines)
    (h : w'.console.err = w.console.err ++ Console.said message lines) :
    Ending templates dir args w (.ok 1 w')
  | thrown {w' : Workspace} {fault : FileFault} (h : FileFails templates dir args[1]? w w'.files fault) :
    Ending templates dir args w (.error (.file fault) w')

/-- A command that says nothing on the second stream, and whose status is zero. -/
structure Silent (P : Failure → FileTree → Prop) (x : Command Nat) (w : Workspace) : Prop
    extends Ends P x w where
  status : ∀ n w', x w = .ok n w' → n = 0

theorem Silent.of_ends {α : Type} {P : Failure → FileTree → Prop} {x : Command α} (h : Ends P x w) :
    Silent P (do let _ ← x; return 0) w := by
  refine ⟨h.bind fun _ _ _ _ => .pure 0, fun n w' he => ?_⟩
  rw [bind_eq] at he
  split at he
  · cases he
    rfl
  · cases he

/-- The console with a command on it that there is not. -/
def withUnknown (name : String) (c : Console) : Console :=
  (c.fail ("Unknown command: \"" ++ name ++ "\"") "").line
    "  Use \"minic help\" to list the commands"

/-- All commands but an unknown one. -/
theorem silent_dispatch (templates : List Path) (dir : Path) (args : List String) (w : Workspace) :
    Silent (Reason templates dir args[1]? w) (dispatch templates dir args) w ∨
      ∃ name, args.head? = some name ∧ dispatch templates dir args = do
        say (withUnknown name)
        return 1 := by
  unfold dispatch
  dsimp only
  split
  · exact .inl (.of_ends (ends_create templates _ dir w))
  · exact .inl (.of_ends ends_run)
  · exact .inl (.of_ends ends_build)
  · exact .inl (.of_ends ends_tree)
  · exact .inl (.of_ends ends_emit)
  · exact .inl (.of_ends (Ends.say fun c => ⟨_, rfl⟩))
  · exact .inl (.of_ends (Ends.say fun c => ⟨_, rfl⟩))
  · exact .inl (.of_ends (Ends.say fun c => ⟨_, rfl⟩))
  · exact .inl (.of_ends (Ends.say fun c => ⟨_, rfl⟩))
  · next name _ _ _ _ _ _ _ _ h => exact .inr ⟨name, h, rfl⟩

/-- What is reported, at the end of a command that failed. -/
theorem report_eq {e : Failure} {message details : String}
    (h : report e w' = .ok 1 { w' with console := w'.console.fail message details })
    (hc : w.console.color = false) (hq : w.Quiet w') : ∃ w'', report e w' = .ok 1 w'' ∧
      w''.console.err = w.console.err ++ Console.said message (Console.detailLines details) := by
  refine ⟨{ w' with console := w'.console.fail message details }, h, ?_⟩
  rw [← hq.err]
  exact Console.err_fail (hq.color.trans hc) message details

theorem perform_of_error {e : Failure} (h : dispatch templates dir args w = .error e w') :
    perform templates dir args w = report e w' := by
  rw [perform_eq, h]

/-- A failure that is not one of files, on the command line. -/
theorem perform_of_reported {e : Failure} {message details : String}
    (hs : Silent (Reason templates dir args[1]? w) (dispatch templates dir args) w)
    (h : dispatch templates dir args w = .error e w') (hc : w.console.color = false)
    (hr : report e w' = .ok 1 { w' with console := w'.console.fail message details }) :
    ∃ w'', perform templates dir args w = .ok 1 w'' ∧
      w''.console.err = w.console.err ++ Console.said message (Console.detailLines details) := by
  have quiet := hs.quiet
  rw [after, h] at quiet
  rw [perform_of_error h]
  exact report_eq hr hc quiet

theorem ending_of_silent (hc : w.console.color = false)
    (hs : Silent (Reason templates dir args[1]? w) (dispatch templates dir args) w) :
    Ending templates dir args w (perform templates dir args w) := by
  cases h : dispatch templates dir args w with
  | ok status w' =>
    obtain rfl := hs.status status w' h
    have quiet := hs.quiet
    rw [after, h] at quiet
    rw [perform_eq, h]
    exact .done quiet.err
  | error e w' =>
    have reported {message details : String}
        (hr : report e w' = .ok 1 { w' with console := w'.console.fail message details })
        (r : Report templates dir args w message (Console.detailLines details)) :
        Ending templates dir args w (perform templates dir args w) := by
      obtain ⟨w'', hp, he⟩ := perform_of_reported hs h hc hr
      rw [hp]
      exact .reported r he
    cases hs.fails e w' h with
    | config e =>
      have quiet := hs.quiet
      rw [after, h] at quiet
      have config : Report templates dir args w (e.message w.shell.machine.words)
          (Console.detailLines "") := .config h
      rw [← quiet.machine] at config
      exact reported rfl config
    | compile hl =>
      refine reported rfl (.compile h hl ?_)
      cases hl with
      | refused _ _ hcomp => exact notMem_message_of_compile hcomp
    | tool hx hd => exact reported rfl (.tool h hx hd (Console.excerpt_detailLines _))
    | file hf =>
      rw [perform_of_error h]
      exact .thrown hf

theorem ending_of_unknown {name : String} (hc : w.console.color = false)
    (hn : args.head? = some name)
    (h : dispatch templates dir args = do say (withUnknown name); return 1) :
    Ending templates dir args w (perform templates dir args w) := by
  have done : perform templates dir args w = .ok 1 { w with console := withUnknown name w.console } := by
    rw [perform_eq, h]
    rfl
  rw [done]
  exact .reported (.unknown hn) (Console.err_fail hc _ "")

/-- A project that cannot be loaded is the end of all commands that load one. -/
theorem dispatch_of_loadFails {e : Failure}
    (hc : args.head? ∈ ["run", "build", "tree", "emit"].map some)
    (h : LoadFails w.files dir args[1]? e) : dispatch templates dir args w = .error e w := by
  have hl := loadFails_iff.mp h
  have first {α : Type} {x : Command α} (hx : x w = .error e w) :
      (do let _ ← x; return 0 : Command Nat) w = .error e w := by rw [bind_eq, hx]
  simp only [List.map_cons, List.map_nil, List.mem_cons, List.not_mem_nil, or_false] at hc
  unfold dispatch
  obtain hc | hc | hc | hc := hc
  all_goals
    rw [hc]
    refine first ?_
  · exact run_of_loadFails h
  · exact build_of_loadFails h
  · rw [tree_eq, hl]
  · rw [emit_eq, hl]

end CommandLine

end IntLang
