import PathQuery.Host.Slicing
import PathQuery.Node.Basic

/-!
# A tracing host

A small host: it evaluates plain paths, has the functions `length`, `keys`, `sort_by` and `slice`,
and keeps a record of every call, also of those that fail.
-/

namespace PathQuery

/-- A function call. -/
structure Call where
  name : String
  args : List Value

/-- The calls of a run, in order. -/
abbrev Trace := List Call

namespace Tracing

/-- The refusal of a node that is no plain path. -/
def refuse (kind : Kind) : Except RuntimeError Value :=
  .error (.interpreter ("fixture cannot evaluate " ++ kind.name))

mutual

/-- Evaluates a plain path: fields, indices, literals, the value itself, and their chains. -/
def evaluate : Node → Value → Except RuntimeError Value
  | ⟨kind, value, children, _⟩, input =>
    match kind with
    | .current => .ok input
    | .literal => .ok (value.getD .null)
    | .field =>
      match value with
      | some (.string name) => .ok (input.field name)
      | _ => .ok .null
    | .index =>
      match value with
      | some (.integer i) => .ok (input.item i)
      | _ => .ok .null
    | .subexpression => evaluateChain children input
    | _ => refuse kind

/-- Evaluates the first node, and the second on its result unless that is null. -/
def evaluateChain : List Node → Value → Except RuntimeError Value
  | left :: rest, input => do
    let result ← evaluate left input
    if result.isNull then return .null
    else
      match rest with
      | right :: _ => evaluate right result
      | [] => refuse .subexpression
  | [], _ => refuse .subexpression

end

/-- Integers and strings are in order among themselves; other keys are all alike. -/
def inOrder : Value → Value → Bool
  | .integer a, .integer b => a ≤ b
  | .string a, .string b => !(b < a)
  | _, _ => true

/-- The keys of the items, each with its item, up to the first error. -/
def keyed (key : Value → Except RuntimeError Value) :
    List Value → Except RuntimeError (List (Value × Value))
  | [] => .ok []
  | item :: items => do
    let k ← key item
    let rest ← keyed key items
    return (k, item) :: rest

/-- The items in the order of their keys; items with equal keys keep their order. -/
def sortBy (key : Value → Except RuntimeError Value) (items : List Value) :
    Except RuntimeError Value := do
  let pairs ← keyed key items
  return .array ((pairs.mergeSort fun a b => inOrder a.1 b.1).map Prod.snd)

/-- The evaluation of plain paths as a host of its own, without functions. -/
def paths : Host Unit where
  evaluate node value s := (evaluate node value, s)
  invoke := Host.unbound.invoke

/-- Applies an expression reference. -/
def applyRef (origin : Origin) (node : Node) (input : Value) : Except RuntimeError Value :=
  (paths.apply origin node input ()).1

def invoke (name : String) (args : List Value) : Except RuntimeError Value :=
  match name with
  | "length" =>
    match args with
    | [arg] =>
      match arg.length? with
      | some n => .ok (.integer n)
      | none => .error (.invalidType name 0 "array, object or string" arg.typeName)
    | _ => .error (.arity name 1 args.length)
  | "keys" =>
    match args with
    | [.object entries] => .ok (.array ((Entries.keys entries).map .string))
    | [arg] => .error (.invalidType name 0 "object" arg.typeName)
    | _ => .error (.arity name 1 args.length)
  | "sort_by" =>
    match args with
    | [.array items, .expref origin node] => sortBy (applyRef origin node) items
    | [_, key] => .error (.invalidType name 1 "expref" key.typeName)
    | _ => .error (.arity name 2 args.length)
  | "slice" =>
    match args with
    | [target, start, stop, step] => Slicing.slice target start.asInt? stop.asInt? step.asInt?
    | _ => .error (.arity name 4 args.length)
  | _ => .error (.unknownFunction name)

end Tracing

/-- The host that records its calls in its state. -/
def Host.tracing : Host Trace where
  evaluate node value trace := (Tracing.evaluate node value, trace)
  invoke name args trace := (Tracing.invoke name args, trace ++ [⟨name, args⟩])

end PathQuery
