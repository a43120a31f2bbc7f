import IntLang.Proofs.Reading.Record
import IntLang.Proofs.Syntax.Sound

/-!
# One pass over names and syntax

A parser checks names while it still reads. All the same it does what a reading of the syntax and a
walk of the finished program do one after the other: the same program or the same first refusal, and
the same scope behind it. Where the syntax fails, a name read before may have been refused already.

* `NameCheck.collect` collects events, so a record and the program read show the same ones;
* **`parse_eq_read_walk`**: one pass is reading, then walking.
-/

namespace IntLang

/-- Nothing is refused, and the events are kept. -/
def NameCheck.collect : NameCheck (List NameEvent) := fun es e => .ok (es ++ [e])

theorem NameCheck.replay_collect (es fs : List NameEvent) :
    collect.replay es fs = (none, es ++ fs) := by
  induction fs generalizing es with
  | nil => simp [replay]
  | cons f fs ih =>
    change collect.replay (es ++ [f]) fs = _
    rw [ih, List.append_assoc, List.singleton_append]

/-- The events on record are those that a walk of the program meets. -/
theorem Parse.exists_record (last : Token) (pulls : List Pull) :
    ∃ t : Record (pulls.length + 1) Program,
      (∀ {σ : Type} (check : NameCheck σ) (s : σ), program check last pulls s = t.run check s) ∧
      ∀ nodes rest, t.outcome = .ok (nodes, rest) → t.events = Program.events nodes := by
  obtain ⟨t, ht⟩ := recorded_program last pulls
  refine ⟨t, fun check s => congrFun (ht _ check) s, fun nodes rest h => ?_⟩
  have hy : (program NameCheck.collect last pulls).Yields [] nodes t.events rest.1 := by
    refine ⟨rest.2, (congrFun (ht _ _) _).trans ?_⟩
    rw [Record.run, NameCheck.replay_collect, h]
    rfl
  obtain ⟨_, _, _, hs⟩ := took_program _ last pulls hy
  rw [NameCheck.replay_collect] at hs
  exact (congrArg Prod.snd hs).symm

/-- Reading and parsing a source have one record between them. -/
theorem exists_record_of_source (source : TokenSource) :
    ∃ t : Record (source.pulls.length + 1) Program,
      source.read = t.outcome.map Prod.fst ∧
      (∀ scope, parse source scope = match NameCheck.replay Scope.apply scope t.events with
        | (none, scope') => (t.outcome.map Prod.fst, scope')
        | (some refusal, scope') => (.error refusal, scope')) ∧
      ∀ nodes rest, t.outcome = .ok (nodes, rest) → t.events = Program.events nodes := by
  obtain ⟨t, ht, hevents⟩ := Parse.exists_record source.last source.pulls
  refine ⟨t, ?_, fun scope => ?_, hevents⟩
  · rw [TokenSource.read, ht, Record.run, NameCheck.replay_silent]
  · simp only [parse, ht, Record.run]
    rcases NameCheck.replay Scope.apply scope t.events with ⟨_ | refusal, scope'⟩ <;> rfl

/-- Where the syntax gives a program, the walk of it decides. -/
theorem parse_of_read {source : TokenSource} {program : Program} (h : source.read = .ok program)
    (scope : Scope) :
    parse source scope = match program.walk scope with
      | (none, scope') => (.ok program, scope')
      | (some refusal, scope') => (.error refusal, scope') := by
  obtain ⟨t, hread, hparse, hevents⟩ := exists_record_of_source source
  rw [hread] at h
  cases ht : t.outcome with
  | ok result =>
    obtain ⟨nodes, rest⟩ := result
    rw [ht] at h
    cases h
    rw [hparse, ht, hevents _ _ ht]
    rfl
  | error e =>
    rw [ht] at h
    cases h

/-- A refusal names the name that is refused. -/
theorem parse_of_read_error {source : TokenSource} {e : CompileError} (h : source.read = .error e)
    (scope : Scope) :
    (parse source scope).1 = .error e ∨
      ∃ name, (parse source scope).1 = .error (.duplicate name) ∨
        (parse source scope).1 = .error (.undeclared name) := by
  obtain ⟨t, hread, hparse, -⟩ := exists_record_of_source source
  rw [hparse]
  rcases hr : NameCheck.replay Scope.apply scope t.events with ⟨_ | refusal, scope'⟩
  · exact .inl (hread.symm.trans h)
  · obtain ⟨name, rfl | rfl⟩ := Scope.replay_refusal hr
    · exact .inr ⟨name, .inl rfl⟩
    · exact .inr ⟨name, .inr rfl⟩

/-- **One pass is reading, then walking.** The syntax of a source decides what is left to check. If it
gives a program, parsing in a scope gives that program unless walking it in this scope meets a
refusal, which is then the error; the scope behind is in both cases the one where the walk stands. If
the syntax has an error, parsing fails with that error or with a refused name. -/
theorem parse_eq_read_walk (source : TokenSource) (scope : Scope) :
    match source.read with
    | .ok program =>
      parse source scope =
        match program.walk scope with
        | (none, scope') => (.ok program, scope')
        | (some refusal, scope') => (.error refusal, scope')
    | .error e =>
      (parse source scope).1 = .error e ∨
        ∃ name, (parse source scope).1 = .error (.duplicate name) ∨
          (parse source scope).1 = .error (.undeclared name) := by
  cases h : source.read with
  | ok program => exact parse_of_read h scope
  | error e => exact parse_of_read_error h scope

end IntLang
