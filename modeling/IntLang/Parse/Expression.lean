import IntLang.Parse.Reading
import IntLang.Parse.Chain

/-!
# Reading expressions

```
chain   := operand { operator operand }
operand := "-" operand | number | name | name "=" chain | "(" chain ")"
```

The right-hand side of an assignment reaches as far as it can. A name is used where its operand is
complete: for an assignment, behind its right-hand side.

* `Parse.chain` reads a chain, `Parse.tail` what may follow an operand in it;
* `Parse.expression` reads the tree of a chain.
-/

namespace IntLang.Parse

/-- The node of a number. A text that does not start with an integer has no value. -/
def numberNode (value : UnitText) : Node :=
  match Text.leadingInt? value with
  | some n => .number n
  | none => .unknown (Node.tagged [] "Number" [("value", .null)])

variable {σ : Type} (check : NameCheck σ) (last : Token)

mutual

def chain (pulls : List Pull) : Reading σ pulls.length Chain :=
  match pulls with
  | [] => .fail (.unexpected last none)
  | .error e :: _ => .fail e
  | .ok t :: rest =>
    match t.kind with
    | .minus => ((chain rest).map fun c => { c with first := .negate c.first }).loose
    | .number => tail (numberNode t.value) rest
    | .ident =>
      look last rest fun next =>
        if next.kind = .assign then
          ((eat last .assign rest).bind fun _ r _ =>
            ((chain r).map fun c => ⟨.assign t.value c.tree, []⟩).followed check (.uses t.value)).loose
        else .after check (.uses t.value) (tail (.var t.value) rest)
    | .lparen =>
      ((chain rest).bind fun c r _ =>
        (eat last .rparen r).andThen fun _ r' _ => tail c.tree r').loose
    | _ => .fail (.unexpected t none)
termination_by pulls.length
decreasing_by all_goals (simp only [List.length_cons]; omega)

def tail (operand : Node) (pulls : List Pull) : Reading σ (pulls.length + 1) Chain :=
  match pulls with
  | [] => .stay ⟨operand, []⟩ []
  | .error e :: _ => .fail e
  | .ok t :: rest =>
    match t.kind.binary? with
    | some op => ((chain rest).map fun c => ⟨operand, (op, c.first) :: c.more⟩).loose.loose
    | none => .stay ⟨operand, []⟩ (.ok t :: rest)
termination_by pulls.length
decreasing_by all_goals (simp only [List.length_cons]; omega)

end

def expression (pulls : List Pull) : Reading σ pulls.length Node := (chain check last pulls).map Chain.tree

end IntLang.Parse
