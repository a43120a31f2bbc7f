import IntLang.CompileError

/-!
# Scopes

All names of a program share one scope, which keeps them in the order of their declarations and
each once. Nothing is ever removed.

* `Scope.declare` adds a name or refuses a name already there;
* `Scope.require` refuses a name that is not there;
* `NameCheck` is a way to check names one after another: `Scope.apply` checks them in a scope,
  `NameCheck.silent` refuses nothing, and `NameCheck.replay` goes on up to the first refusal.
-/

namespace IntLang

/-- The declared names, oldest first. -/
structure Scope where
  names : List UnitText
  nodup : names.Nodup
  deriving Repr

/-- What a program does with a name. -/
inductive NameEvent where
  | declares (name : UnitText)
  | uses (name : UnitText)
  deriving DecidableEq, Repr

/-- What becomes of the known names when a program does something with a name. -/
abbrev NameCheck (σ : Type) := σ → NameEvent → Except CompileError σ

namespace NameCheck

/-- Nothing is known of names, and every name may be declared and used. -/
def silent : NameCheck Unit := fun _ _ => .ok ()

/-- The first refusal, if there is one, and what was known of the names then. -/
def replay {σ : Type} (check : NameCheck σ) (s : σ) : List NameEvent → Option CompileError × σ
  | [] => (none, s)
  | event :: events =>
    match check s event with
    | .error refusal => (some refusal, s)
    | .ok s' => replay check s' events

end NameCheck

namespace Scope

def empty : Scope := ⟨[], .nil⟩

def declares (s : Scope) (name : UnitText) : Bool := s.names.contains name

def declare (s : Scope) (name : UnitText) : Except CompileError Scope :=
  if h : name ∈ s.names then .error (.duplicate name)
  else .ok ⟨s.names ++ [name], by
    rw [List.nodup_append]
    exact ⟨s.nodup, by simp, fun a ha b hb => by grind⟩⟩

def require (s : Scope) (name : UnitText) : Except CompileError Unit :=
  if name ∈ s.names then .ok () else .error (.undeclared name)

/-- The scope after one event. -/
def apply : NameCheck Scope := fun s event =>
  match event with
  | .declares name => s.declare name
  | .uses name => (s.require name).map fun _ => s

/-- The scope of some names, each once. -/
def ofNames (names : List UnitText) : Scope :=
  names.foldl (fun s name => (s.declare name).toOption.getD s) empty

end Scope

end IntLang
