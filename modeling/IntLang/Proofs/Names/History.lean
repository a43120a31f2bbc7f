import IntLang.Scope

/-!
# Scopes by their history

A scope is called in any order, and some calls are refused. Every answer is decided by the names that
were declared in front of it, whether those declarations passed or not.

* `Scope.Call`, `Scope.answers`: calls of one scope, one after another;
* `Call.byHistory`: the answer to a call by the calls in front of it;
* `Scope.Remembers`: a scope holds each declared name of a history once, in the order of the first
  declarations; one call keeps this (`answer_eq`), and so does a run (`Remembers.after`);
* **`answers_history`**: every answer of a run, and the names behind it.
-/

namespace IntLang.Scope

/-! ## Calls -/

inductive Call where
  | declare (name : UnitText)
  | require (name : UnitText)
  | isDeclared (name : UnitText)
  | names
  | size
  deriving DecidableEq, Repr

inductive Answer where
  | passed
  | refused (e : CompileError)
  | truth (b : Bool)
  | names (names : List UnitText)
  | size (n : Nat)
  deriving DecidableEq, Repr

/-- The answer to a call, and the scope behind it. -/
def answer (s : Scope) : Call → Answer × Scope
  | .declare name =>
    match s.declare name with
    | .ok s' => (.passed, s')
    | .error e => (.refused e, s)
  | .require name =>
    match s.require name with
    | .ok () => (.passed, s)
    | .error e => (.refused e, s)
  | .isDeclared name => (.truth (s.declares name), s)
  | .names => (.names s.names, s)
  | .size => (.size s.names.length, s)

/-- The answers to calls one after another, each with the scope behind it. -/
def answers : Scope → List Call → List (Answer × Scope)
  | _, [] => []
  | s, call :: calls => s.answer call :: answers (s.answer call).2 calls

/-- The scope behind some calls. -/
def after (s : Scope) (calls : List Call) : Scope := calls.foldl (fun s call => (s.answer call).2) s

theorem answers_append (s : Scope) (calls more : List Call) :
    s.answers (calls ++ more) = s.answers calls ++ (s.after calls).answers more := by
  induction calls generalizing s with
  | nil => rfl
  | cons call calls ih =>
    rw [List.cons_append, answers, answers, ih]
    rfl

/-! ## Histories -/

/-- The names that calls declare, or try to, in order. -/
def declared : List Call → List UnitText :=
  List.filterMap fun
    | .declare name => some name
    | _ => none

theorem declared_append (calls more : List Call) :
    declared (calls ++ more) = declared calls ++ declared more := List.filterMap_append

/-- The answer to a call by the calls in front of it. -/
def Call.byHistory (history : List Call) : Call → Answer
  | .declare name => if name ∈ declared history then .refused (.duplicate name) else .passed
  | .require name => if name ∈ declared history then .passed else .refused (.undeclared name)
  | .isDeclared name => .truth (name ∈ declared history)
  | .names => .names (declared history).eraseDups
  | .size => .size (declared history).eraseDups.length

/-- The scope holds each name that was declared once, in the order of the first declarations. -/
def Remembers (s : Scope) (history : List Call) : Prop := s.names = (declared history).eraseDups

namespace Remembers

variable {s : Scope} {history : List Call}

theorem empty : empty.Remembers [] := rfl

theorem mem_names (h : s.Remembers history) {name : UnitText} :
    name ∈ s.names ↔ name ∈ declared history := by
  rw [h, List.mem_eraseDups]

/-- Only the first declaration of a name adds it. -/
theorem eraseDups_concat (names : List UnitText) (name : UnitText) :
    (names ++ [name]).eraseDups =
      if name ∈ names then names.eraseDups else names.eraseDups ++ [name] := by
  rw [List.eraseDups_append, List.removeAll]
  by_cases h : name ∈ names
  · simp [h]
  · simp [h, List.eraseDups_cons]

/-- A call that declares nothing new changes nothing to remember. -/
theorem concat (h : s.Remembers history) {call : Call}
    (hc : ∀ name, call = .declare name → name ∈ declared history) :
    s.Remembers (history ++ [call]) := by
  rw [Remembers, h, declared_append]
  cases call with
  | declare name =>
    exact (if_pos (hc name rfl)).symm.trans (eraseDups_concat (declared history) name).symm
  | require | isDeclared | names | size => exact congrArg List.eraseDups (List.append_nil _).symm

/-- **One call.** Its answer is the one by the history, which the scope behind it remembers. -/
theorem answer_eq (h : s.Remembers history) (call : Call) :
    (s.answer call).1 = call.byHistory history ∧ (s.answer call).2.Remembers (history ++ [call]) := by
  cases call with
  | declare name =>
    rw [answer, Scope.declare, Call.byHistory]
    by_cases hn : name ∈ declared history
    · rw [dif_pos (h.mem_names.mpr hn), if_pos hn]
      refine ⟨rfl, h.concat ?_⟩
      rintro _ ⟨⟩
      exact hn
    · rw [dif_neg (mt h.mem_names.mp hn), if_neg hn]
      refine ⟨rfl, ?_⟩
      rw [Remembers, declared_append]
      exact (congrArg (· ++ [name]) h).trans
        ((if_neg hn).symm.trans (eraseDups_concat (declared history) name).symm)
  | require name =>
    rw [answer, Scope.require, Call.byHistory]
    by_cases hn : name ∈ declared history
    · rw [if_pos (h.mem_names.mpr hn), if_pos hn]
      exact ⟨rfl, h.concat nofun⟩
    · rw [if_neg (mt h.mem_names.mp hn), if_neg hn]
      exact ⟨rfl, h.concat nofun⟩
  | isDeclared name =>
    refine ⟨congrArg Answer.truth ?_, h.concat nofun⟩
    rw [declares, List.contains_eq_mem, decide_eq_decide]
    exact h.mem_names
  | names => exact ⟨congrArg Answer.names h, h.concat nofun⟩
  | size => exact ⟨congrArg (Answer.size ∘ List.length) h, h.concat nofun⟩

/-- **A run.** By induction on the calls: each of them extends the history that is remembered. -/
theorem after (h : s.Remembers history) (calls : List Call) :
    (s.after calls).Remembers (history ++ calls) := by
  induction calls generalizing s history with
  | nil => rwa [List.append_nil]
  | cons call calls ih =>
    have step := ih (h.answer_eq call).2
    rwa [List.append_assoc] at step

end Remembers

/-- Only a declaration that passes changes the scope. -/
theorem answer_of_ne {s : Scope} {call : Call} (h : (s.answer call).2 ≠ s) :
    ∃ name, call = .declare name ∧ (s.answer call).1 = .passed := by
  cases call with
  | declare name =>
    refine ⟨name, rfl, ?_⟩
    unfold answer at h ⊢
    dsimp only at h ⊢
    split at h
    · rfl
    · exact absurd rfl h
  | require name =>
    unfold answer at h
    dsimp only at h
    split at h
    · exact absurd rfl h
    · exact absurd rfl h
  | isDeclared | names | size => exact absurd rfl h

/-- **Answers by history.** Whatever is asked of a new scope, in any order: a declaration is refused just
if the name was declared before, a use passes just if it was, and the names are those declared so far,
each once and in the order of their first declarations. A call that is refused or only asks changes
nothing. -/
theorem answers_history (front : List Call) (call : Call) (more : List Call) :
    let before := empty.after front
    let behind := empty.after (front ++ [call])
    empty.answers (front ++ call :: more) =
        empty.answers front ++ (call.byHistory front, behind) :: behind.answers more ∧
      before.names = (declared front).eraseDups ∧
      behind.names = (declared (front ++ [call])).eraseDups ∧
      (behind ≠ before → ∃ name, call = .declare name ∧ call.byHistory front = .passed) := by
  have remembered : (empty.after front).Remembers front := Remembers.empty.after front
  have known : (empty.after (front ++ [call])).Remembers (front ++ [call]) :=
    Remembers.empty.after (front ++ [call])
  have step : empty.after (front ++ [call]) = ((empty.after front).answer call).2 := List.foldl_append
  have told := (remembered.answer_eq call).1
  refine ⟨?_, remembered, known, ?_⟩
  · rw [answers_append, answers, step, ← told]
  · rw [step, ← told]
    exact answer_of_ne

end IntLang.Scope
