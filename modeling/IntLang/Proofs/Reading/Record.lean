import IntLang.Parse.Statement
import IntLang.Proofs.Names.Replay

/-!
# Records of readings

A parser checks names while it reads. How names are checked has no say in what it reads: for every
parser there is one record, the name events in their order and an outcome, and every run of it is
that record replayed. The first refused event ends a run; without one the outcome is the record's.

* `Record.run` replays a record under a check;
* `Recorded` says that a reading, given for all checks, is the run of one record;
* `Recorded.glue` puts records one behind the other, the other combinators are cases of it;
* **`recorded_program`**: reading a program is recorded.
-/

namespace IntLang

/-! ## Records -/

/-- The name events of a reading, and what it makes of the pulls if none is refused. -/
structure Record (n : Nat) (α : Type) where
  events : List NameEvent
  outcome : Except CompileError (α × { rest : List Pull // rest.length < n })

variable {σ α β : Type} {m n : Nat}

/-- The reading that a record stands for. -/
def Record.run (t : Record n α) (check : NameCheck σ) : Reading σ n α := fun s =>
  match check.replay s t.events with
  | (none, s') => ⟨s', t.outcome⟩
  | (some refusal, s') => ⟨s', .error refusal⟩

/-- All runs of a reading come from one record. -/
def Recorded (r : ∀ σ : Type, NameCheck σ → Reading σ n α) : Prop :=
  ∃ t : Record n α, ∀ (σ : Type) (check : NameCheck σ), r σ check = t.run check

namespace Recorded

/-! ## Combinators -/

theorem fail (e : CompileError) : Recorded (n := n) (α := α) fun _ _ => .fail e :=
  ⟨⟨[], .error e⟩, fun _ _ => rfl⟩

theorem done (a : α) (rest : List Pull) (h : rest.length < n) :
    Recorded fun _ _ => .done a rest h :=
  ⟨⟨[], .ok (a, ⟨rest, h⟩)⟩, fun _ _ => rfl⟩

theorem stay (a : α) (pulls : List Pull) : Recorded fun _ _ => .stay a pulls := done a pulls _

theorem after {r : ∀ σ : Type, NameCheck σ → Reading σ n α} (event : NameEvent) (hr : Recorded r) :
    Recorded fun σ check => .after check event (r σ check) := by
  obtain ⟨t, ht⟩ := hr
  refine ⟨⟨event :: t.events, t.outcome⟩, fun σ check => funext fun s => ?_⟩
  simp only [Reading.after, ht, Record.run, NameCheck.replay]
  cases check s event <;> rfl

/-- **Records one behind the other.** -/
theorem glue {r : ∀ σ : Type, NameCheck σ → Reading σ m α}
    {next : ∀ σ : Type, NameCheck σ → α → (rest : List Pull) → rest.length < m → Reading σ n β}
    (hr : Recorded r) (hn : ∀ a rest h, Recorded fun σ check => next σ check a rest h) :
    Recorded fun σ check => (r σ check).glue (next σ check) := by
  obtain ⟨⟨es, outcome⟩, ht⟩ := hr
  cases outcome with
  | error e =>
    refine ⟨⟨es, .error e⟩, fun σ check => funext fun s => ?_⟩
    simp only [Reading.glue, ht, Record.run]
    rcases check.replay s es with ⟨_ | refusal, s'⟩ <;> rfl
  | ok result =>
    obtain ⟨a, rest, h⟩ := result
    obtain ⟨⟨fs, outcome'⟩, ht'⟩ := hn a rest h
    refine ⟨⟨es ++ fs, outcome'⟩, fun σ check => funext fun s => ?_⟩
    simp only [Reading.glue, ht, Record.run, NameCheck.replay_append]
    rcases check.replay s es with ⟨_ | refusal, s'⟩
    · simp only [ht', Record.run]
    · rfl

section

variable {r : ∀ σ : Type, NameCheck σ → Reading σ n α}

theorem weaken (h : n ≤ m) (hr : Recorded r) : Recorded fun σ check => (r σ check).weaken h :=
  hr.glue fun a rest _ => done a rest _

theorem loose (hr : Recorded r) : Recorded fun σ check => (r σ check).loose := hr.weaken _

theorem map (f : α → β) (hr : Recorded r) : Recorded fun σ check => (r σ check).map f :=
  hr.glue fun a rest h => done (f a) rest h

theorem followed (event : NameEvent) (hr : Recorded r) :
    Recorded fun σ check => (r σ check).followed check event :=
  hr.glue fun a rest h => (done a rest h).after event

theorem bind {next : ∀ σ : Type, NameCheck σ → α → (rest : List Pull) → rest.length < n →
      Reading σ rest.length β} (hr : Recorded r)
    (hn : ∀ a rest h, Recorded fun σ check => next σ check a rest h) :
    Recorded fun σ check => (r σ check).bind (next σ check) :=
  hr.glue fun a rest h => (hn a rest h).weaken _

theorem andThen {next : ∀ σ : Type, NameCheck σ → α → (rest : List Pull) → rest.length < n →
      Reading σ (rest.length + 1) β} (hr : Recorded r)
    (hn : ∀ a rest h, Recorded fun σ check => next σ check a rest h) :
    Recorded fun σ check => (r σ check).andThen (next σ check) :=
  hr.glue fun a rest h => (hn a rest h).weaken _

theorem finish {r : ∀ σ : Type, NameCheck σ → Reading σ (n + 1) α}
    {next : ∀ σ : Type, NameCheck σ → α → (rest : List Pull) → rest.length < n + 1 →
      Reading σ rest.length β} (hr : Recorded r)
    (hn : ∀ a rest h, Recorded fun σ check => next σ check a rest h) :
    Recorded fun σ check => (r σ check).finish (next σ check) :=
  hr.glue fun a rest h => (hn a rest h).weaken _

end

end Recorded

/-! ## Parsers -/

namespace Parse

variable (last : Token)

theorem recorded_look {next : ∀ σ : Type, NameCheck σ → Token → Reading σ n α} (pulls : List Pull)
    (hn : ∀ t, Recorded fun σ check => next σ check t) :
    Recorded fun σ check => look last pulls (next σ check) := by
  unfold look
  cases TokenSource.peek last pulls with
  | error e => exact .fail e
  | ok t => exact hn t

theorem recorded_eat (kind : TokenKind) (pulls : List Pull) :
    Recorded fun _ _ => eat last kind pulls := by
  cases pulls with
  | nil => exact .fail _
  | cons pull rest =>
    cases pull with
    | error e => exact .fail e
    | ok t =>
      simp only [eat]
      split
      · exact .stay t rest
      · exact .fail _

mutual

theorem recorded_chain (pulls : List Pull) : Recorded fun _ check => chain check last pulls := by
  unfold chain
  match pulls with
  | [] => exact .fail _
  | .error e :: _ => exact .fail e
  | .ok t :: rest =>
    dsimp only
    split
    · exact ((recorded_chain rest).map _).loose
    · exact recorded_tail _ rest
    · refine recorded_look last rest fun next => ?_
      split
      · exact ((recorded_eat last .assign rest).bind fun _ r _ =>
          ((recorded_chain r).map _).followed _).loose
      · exact (recorded_tail _ rest).after _
    · exact ((recorded_chain rest).bind fun c r _ =>
        (recorded_eat last .rparen r).andThen fun _ r' _ => recorded_tail _ r').loose
    · exact .fail _
termination_by pulls.length

theorem recorded_tail (operand : Node) (pulls : List Pull) :
    Recorded fun _ check => tail check last operand pulls := by
  unfold tail
  match pulls with
  | [] => exact .stay _ _
  | .error e :: _ => exact .fail e
  | .ok t :: rest =>
    dsimp only
    split
    · exact ((recorded_chain rest).map _).loose.loose
    · exact .stay _ _
termination_by pulls.length

end

theorem recorded_expression (pulls : List Pull) :
    Recorded fun _ check => expression check last pulls := (recorded_chain last pulls).map _

theorem recorded_declaration (pulls : List Pull) :
    Recorded fun _ check => declaration check last pulls := by
  refine (recorded_eat last .ident pulls).bind fun name r _ => recorded_look last r fun next => ?_
  split
  · exact (recorded_eat last .assign r).bind fun _ r _ =>
      (recorded_expression last r).bind fun value r _ =>
      ((recorded_eat last .semi r).map _).followed _
  · exact ((recorded_eat last .semi r).map _).followed _

theorem recorded_printing (pulls : List Pull) :
    Recorded fun _ check => printing check last pulls := by
  refine (recorded_eat last .lparen pulls).bind fun _ r _ => recorded_look last r fun next => ?_
  split
  · exact (recorded_eat last .string r).bind fun text r _ =>
      (recorded_eat last .rparen r).bind fun _ r _ => (recorded_eat last .semi r).map _
  · exact (recorded_expression last r).bind fun value r _ =>
      (recorded_eat last .rparen r).bind fun _ r _ => (recorded_eat last .semi r).map _

mutual

theorem recorded_statement (pulls : List Pull) :
    Recorded fun _ check => statement check last pulls := by
  unfold statement
  match pulls with
  | [] => exact .fail _
  | .error e :: _ => exact .fail e
  | .ok t :: rest =>
    dsimp only
    split
    · exact (recorded_declaration last rest).loose
    · exact (recorded_printing last rest).loose
    · refine ((recorded_eat last .lparen rest).bind fun _ r _ =>
        (recorded_expression last r).bind fun condition r _ =>
        (recorded_eat last .rparen r).bind fun _ r _ =>
        (recorded_block r).andThen fun yes r _ => recorded_look last r fun next => ?_).loose
      split
      · exact ((recorded_eat last .elseWord r).bind fun _ r _ => (recorded_block r).map _).loose
      · exact .stay _ r
    · exact (recorded_expression last (.ok t :: rest)).bind fun e r _ =>
        (recorded_eat last .semi r).map _
termination_by 2 * pulls.length

theorem recorded_block (pulls : List Pull) : Recorded fun _ check => block check last pulls := by
  unfold block
  exact (recorded_eat last .lbrace pulls).bind fun _ r _ =>
    (recorded_statements .rbrace r).finish fun body r _ => (recorded_eat last .rbrace r).map _
termination_by 2 * pulls.length

theorem recorded_statements (close : TokenKind) (pulls : List Pull) :
    Recorded fun _ check => statements check last close pulls := by
  unfold statements
  match pulls with
  | [] => exact .stay _ _
  | .error e :: _ => exact .fail e
  | .ok t :: rest =>
    dsimp only
    split
    · exact .stay _ _
    · exact ((recorded_statement (.ok t :: rest)).andThen fun s r _ =>
        (recorded_statements close r).map _).loose
termination_by 2 * pulls.length + 1
decreasing_by all_goals (simp only [List.length_cons] at *; omega)

end

/-- **Reading a program is recorded.** -/
theorem recorded_program (pulls : List Pull) : Recorded fun _ check => program check last pulls :=
  recorded_statements last .eof pulls

end Parse

end IntLang
