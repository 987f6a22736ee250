import PathQuery.Host.Basic
import PathQuery.Procedure

/-!
# Commands

What the program can be asked to do with the text of a syntax tree: compile it, or run it on the
text of a JSON value.
-/

namespace PathQuery

/-- Why a command fails. -/
inductive CommandError where
  | node (error : NodeError)
  | compile (error : CompileError)
  | runtime (error : RuntimeError)
  | invalidJson
  | noInput

namespace CommandError

def message : CommandError → String
  | .node error => "Invalid AST: " ++ error.message
  | .compile error => "Compile error: " ++ error.message
  | .runtime error => "Evaluation error: " ++ error.message
  | .invalidJson => "Invalid JSON: malformed text"
  | .noInput => "No input provided. Use --input or pipe JSON to stdin."

end CommandError

namespace Command

/-- Compiles the syntax tree that a text holds. -/
def compile (text : String) (options : Procedure.Options) : Except CommandError Procedure := do
  let node ← (Node.parse text).mapError .node
  (Procedure.compile node options).mapError .compile

/-- Runs the syntax tree that a text holds on the JSON value that the input holds, without a host.
The input is read first. -/
def run (text : String) (input : Option String) : Except CommandError Json := do
  let some input := input | .error .noInput
  let some json := Json.parse? input | .error .invalidJson
  let procedure ← compile text {}
  let value ← (procedure.call Host.unbound (Value.ofJson json) ()).1.mapError .runtime
  return value.toJson

end Command

end PathQuery
