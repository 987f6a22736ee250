import PathQuery.Code.Exec
import PathQuery.Code.Listing
import PathQuery.Query.Check
import PathQuery.Query.Lower
import PathQuery.Query.Number
import PathQuery.Symbols

/-!
# Procedures

`compile` turns a syntax tree into a procedure; `call` runs a procedure on a value under a host. A
`Stage` is what compiling a node depends on besides the node.
-/

namespace PathQuery

/-- How far a compilation has come when it reaches a node: the names that were issued, how many
slots and how many expression references there are already, and how many levels stand above the
node. -/
structure Stage where
  symbols : Symbols
  slots : Nat
  references : Nat
  depth : Nat

namespace Stage

/-- Where a compilation starts that numbers its expression references from `first` on. The two
registers have their names. -/
def start (first : Nat) : Stage where
  symbols := ({} : Symbols).allocated ["value", "current"]
  slots := 2
  references := first
  depth := 0

/-- What a node adds to a procedure: its code, and the names of the slots that are set aside for
it. -/
def lower (stage : Stage) (node : Node) : Except CompileError (List Stmt × SlotNames) :=
  (Query.check stage.depth node).map fun query =>
    ((query.number stage.references).lower stage.slots,
      stage.symbols.allocateAll query.temporaries)

end Stage

/-- A compiled query. -/
structure Procedure where
  name : String
  /-- The text of the query, if it was given. -/
  display : String
  /-- The names of the slots, by their index. -/
  slots : SlotNames
  body : List Stmt

namespace Procedure

/-- How to name a procedure and what to write above its listing. -/
structure Options where
  name : String := "compiled"
  display : String := ""

/-- A letter or underscore, then letters, digits and underscores, all of them ASCII. -/
def isIdentifier (name : String) : Bool :=
  match name.toList with
  | [] => false
  | c :: cs => (c.isAlpha || c == '_') && cs.all fun c => c.isAlphanum || c == '_'

/-- Compiles a syntax tree. The name is checked before the tree. The first slots are the running
result and the current context. The expression references of the tree are numbered from `first` on:
compilations that are given ranges apart make references that differ. -/
def compile (node : Node) (options : Options) (first : Nat := 0) :
    Except CompileError Procedure :=
  if isIdentifier options.name then
    ((Stage.start first).lower node).map fun piece =>
      { name := options.name
        display := options.display
        slots := "value" :: "current" :: piece.2
        body := .copy .current .value :: piece.1 }
  else .error (.invalidName options.name)

/-- The listing of a procedure. -/
def source (procedure : Procedure) : String :=
  Listing.render procedure.name procedure.display procedure.slots procedure.body

/-- Runs a procedure on `root` and gives all that the run leaves behind. -/
def run {σ : Type} (procedure : Procedure) (host : Host σ) (root : Value) (s : σ) : Outcome σ :=
  Stmt.execAll host procedure.body (Frame.start procedure.slots.length root) s

/-- Runs a procedure on `root`. -/
def call {σ : Type} (procedure : Procedure) (host : Host σ) (root : Value) (s : σ) :
    Except RuntimeError Value × σ :=
  let outcome := procedure.run host root s
  (outcome.result, outcome.state)

end Procedure

end PathQuery
