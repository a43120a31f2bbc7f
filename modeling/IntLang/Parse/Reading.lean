import IntLang.TokenSource
import IntLang.Scope

/-!
# Readings

A reading goes from what is known of the names to a result with the pulls that are left, or to an
error, and in both cases to what is known of the names by then. The result's bound is above the
number of pulls left, so a parser that reads at least one token can be seen to end.

* `Reading.glue` goes on with the pulls that a reading leaves; `bind`, `andThen` and `finish` are
  the forms of it in which the bounds take care of themselves;
* `Reading.after` checks a name before a reading, `Reading.followed` behind it;
* `Parse.eat` takes one token of a given kind.
-/

namespace IntLang

/-- Where a reading has arrived. -/
structure Reached (σ : Type) (bound : Nat) (α : Type) where
  known : σ
  outcome : Except CompileError (α × { rest : List Pull // rest.length < bound })

abbrev Reading (σ : Type) (bound : Nat) (α : Type) := σ → Reached σ bound α

namespace Reading

variable {σ α β : Type} {m n : Nat}

def fail (e : CompileError) : Reading σ n α := fun s => ⟨s, .error e⟩

def done (a : α) (rest : List Pull) (h : rest.length < n) : Reading σ n α :=
  fun s => ⟨s, .ok (a, ⟨rest, h⟩)⟩

/-- A result that takes no token. -/
def stay (a : α) (pulls : List Pull) : Reading σ (pulls.length + 1) α :=
  done a pulls (Nat.lt_succ_self pulls.length)

/-- The name is checked before the reading. -/
def after (check : NameCheck σ) (event : NameEvent) (r : Reading σ n α) : Reading σ n α := fun s =>
  match check s event with
  | .ok s' => r s'
  | .error e => ⟨s, .error e⟩

/-- Goes on with what is left, unless the reading failed. -/
def glue (r : Reading σ m α) (next : α → (rest : List Pull) → rest.length < m → Reading σ n β) :
    Reading σ n β := fun s =>
  match r s with
  | ⟨s', .ok (a, rest)⟩ => next a rest.1 rest.2 s'
  | ⟨s', .error e⟩ => ⟨s', .error e⟩

/-- The same reading under a larger bound. -/
def weaken (h : m ≤ n) (r : Reading σ m α) : Reading σ n α :=
  r.glue fun a rest h' => done a rest (Nat.lt_of_lt_of_le h' h)

/-- The same reading with one more pull before it. -/
def loose (r : Reading σ n α) : Reading σ (n + 1) α := r.weaken (Nat.le_succ n)

/-- Goes on by taking at least one token more. -/
def bind (r : Reading σ n α)
    (next : α → (rest : List Pull) → rest.length < n → Reading σ rest.length β) : Reading σ n β :=
  r.glue fun a rest h => (next a rest h).weaken (Nat.le_of_lt h)

/-- Goes on by taking any number of tokens. -/
def andThen (r : Reading σ n α)
    (next : α → (rest : List Pull) → rest.length < n → Reading σ (rest.length + 1) β) :
    Reading σ n β :=
  r.glue fun a rest h => (next a rest h).weaken (Nat.succ_le_of_lt h)

/-- Goes on from a reading that may have taken nothing by taking at least one token. -/
def finish (r : Reading σ (n + 1) α)
    (next : α → (rest : List Pull) → rest.length < n + 1 → Reading σ rest.length β) :
    Reading σ n β :=
  r.glue fun a rest h => (next a rest h).weaken (Nat.le_of_lt_succ h)

def map (f : α → β) (r : Reading σ n α) : Reading σ n β := r.glue fun a rest h => done (f a) rest h

/-- The name is checked behind the reading, unless it failed. -/
def followed (check : NameCheck σ) (event : NameEvent) (r : Reading σ n α) : Reading σ n α :=
  r.glue fun a rest h => (done a rest h).after check event

end Reading

namespace Parse

variable {σ α : Type}

/-- Looks at the next token; its lexical error, if it has one, is raised here. -/
def look {n : Nat} (last : Token) (pulls : List Pull) (next : Token → Reading σ n α) :
    Reading σ n α :=
  match TokenSource.peek last pulls with
  | .ok t => next t
  | .error e => .fail e

/-- Takes a token of the given kind; any other is an error. -/
def eat (last : Token) (kind : TokenKind) : (pulls : List Pull) → Reading σ pulls.length Token
  | [] => .fail (.unexpected last (some (.expected kind)))
  | .error e :: _ => .fail e
  | .ok t :: rest =>
    if t.kind = kind then .stay t rest else .fail (.unexpected t (some (.expected kind)))

end Parse

end IntLang
