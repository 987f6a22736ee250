import PathQuery.Node.Interchange

/-!
# Hosts

A procedure runs under a host, which supplies functions and evaluates the bodies of expression
references. A host may keep a state of its own and may fail.
-/

namespace PathQuery

/-- What can go wrong while a query runs. Only a host fails. -/
inductive RuntimeError where
  | unknownFunction (name : String)
  | arity (name : String) (expected actual : Nat)
  | invalidType (name : String) (position : Nat) (expected actual : String)
  | invalidArgument (name reason : String)
  | interpreter (reason : String)
deriving DecidableEq

namespace RuntimeError

def message : RuntimeError → String
  | .unknownFunction name => "unknown function: " ++ name ++ "()"
  | .arity name expected actual =>
    name ++ "() expects " ++ toString expected ++ " arguments, got " ++ toString actual
  | .invalidType name position expected actual =>
    name ++ "() argument " ++ toString position ++ " must be " ++ expected ++ ", got " ++ actual
  | .invalidArgument name reason => name ++ "(): " ++ reason
  | .interpreter reason => "interpreter error: " ++ reason

end RuntimeError

/-- A host with state `σ`. -/
structure Host (σ : Type) where
  /-- Evaluates a node on a value. -/
  evaluate : Node → Value → σ → Except RuntimeError Value × σ
  /-- Calls the function of the given name. -/
  invoke : String → List Value → σ → Except RuntimeError Value × σ

namespace Host

variable {σ : Type}

/-- A host that has no functions and cannot evaluate nodes. -/
def unbound : Host σ where
  evaluate node _ s :=
    (.error (.interpreter ("no tree interpreter bound to evaluate " ++ node.text)), s)
  invoke name _ s := (.error (.unknownFunction name), s)

/-- The host that stands behind an expression reference, where `host` is the one that the code ran
under. A reference that was handed in from outside would bring along the interpreter it was made
with; the interpreters of others are not part of the model, so there is none behind it here. -/
def behind (host : Host σ) : Origin → Host σ
  | .given _ => unbound
  | .site _ => host

/-- Applies an expression reference to a value, under the host that stands behind it. -/
def apply (host : Host σ) (origin : Origin) (node : Node) (value : Value) (s : σ) :
    Except RuntimeError Value × σ :=
  (host.behind origin).evaluate node value s

end Host

end PathQuery
