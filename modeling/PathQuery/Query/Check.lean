import PathQuery.Node.Interchange
import PathQuery.Query.Basic
import PathQuery.Text.Visible

/-!
# Checking a syntax tree

`Query.check` turns a syntax tree into a query or reports its first defect. A node is examined
before its children, the children from left to right, and the depth of a node before anything else
about it. What stands under an expression reference is not examined.
-/

namespace PathQuery

/-- What is wrong with a node of a known kind. -/
inductive Defect where
  | literalWithoutValue
  | noStringValue
  | noIntegerIndex
  | childCount (expected actual : Nat)
  | unknownComparator
  | entryNotPair
  | noSliceBounds
  | sliceBoundType
deriving DecidableEq

namespace Defect

def message : Defect → String
  | .literalWithoutValue => "literal without a value"
  | .noStringValue => "expected a string value"
  | .noIntegerIndex => "expected an integer index"
  | .childCount expected actual =>
    "expected " ++ toString expected ++ " children, got " ++ toString actual
  | .unknownComparator => "unknown comparison operator"
  | .entryNotPair => "entries must be key_val_pair nodes"
  | .noSliceBounds => "expected [start, stop, step]"
  | .sliceBoundType => "slice bounds must be integers or null"

end Defect

/-- Why a syntax tree cannot be compiled. -/
inductive CompileError where
  | unknownNode (kind : String) (node : Node)
  | malformedNode (node : Node) (defect : Defect)
  | tooDeep
  | invalidName (name : String)

/-- How many levels of a syntax tree are examined. -/
def maxDepth : Nat := 256

namespace CompileError

def message : CompileError → String
  | .unknownNode kind node => "no lowering rule for node kind \"" ++ kind ++ "\": " ++ node.text
  | .malformedNode node defect =>
    "malformed " ++ node.kind.name ++ " node (" ++ defect.message ++ "): " ++ node.text
  | .tooDeep => "AST is nested deeper than " ++ toString maxDepth ++ " levels"
  | .invalidName name =>
    "invalid procedure name " ++ Text.visible name ++ ": expected an identifier"

end CompileError

namespace Node

/-- The string value that the node must have. -/
def stringValue (node : Node) : Except CompileError String :=
  match node.name? with
  | some s => .ok s
  | none => .error (.malformedNode node .noStringValue)

/-- The operator that a comparator node must have. -/
def operator (node : Node) : Except CompileError Comparator :=
  match node.name?.bind Comparator.ofName? with
  | some op => .ok op
  | none => .error (.malformedNode node .unknownComparator)

/-- The value that a literal node must have. -/
def literalValue (node : Node) : Except CompileError Value :=
  match node.value with
  | some value => .ok value
  | none => .error (.malformedNode node .literalWithoutValue)

/-- The index that an index node must have. -/
def indexValue (node : Node) : Except CompileError Int :=
  match node.value with
  | some (.integer i) => .ok i
  | _ => .error (.malformedNode node .noIntegerIndex)

/-- A bound of a slice node: an integer, or null for none. -/
def sliceBound (node : Node) : Value → Except CompileError (Option Int)
  | .integer n => .ok (some n)
  | .null => .ok none
  | _ => .error (.malformedNode node .sliceBoundType)

/-- The slice that a slice node must spell out. -/
def sliceQuery (node : Node) : Except CompileError Query :=
  match node.value with
  | some (.array [start, stop, step]) => do
    let start ← node.sliceBound start
    let stop ← node.sliceBound stop
    let step ← node.sliceBound step
    return .slice start stop step
  | _ => .error (.malformedNode node .noSliceBounds)

/-- Reports the node for not having the number of children that its kind calls for. -/
def wrongChildCount {α : Type} (node : Node) (expected : Nat) : Except CompileError α :=
  .error (.malformedNode node (.childCount expected node.children.length))

end Node

/-- What a node asks of its children, and the query that their queries make. -/
inductive Rule where
  /-- The children do not matter. -/
  | leaf (query : Query)
  | unary (make : Query → Query)
  | binary (make : Query → Query → Query)
  /-- Any number of children. -/
  | items (make : List Query → Query)
  /-- Any number of children, each a pair of a key and an expression. -/
  | pairs (make : List (String × Query) → Query)
  /-- One child, which is kept as it is. -/
  | quoted (make : Node → Query)

namespace Node

/-- The rule of a node, once its kind and value are known to be right. A projection runs over
arrays unless it asks for objects. -/
def rule (node : Node) : Except CompileError Rule :=
  match node.kind with
  | .literal => node.literalValue.map fun value => .leaf (.literal value)
  | .field => node.stringValue.map fun name => .leaf (.field name)
  | .index => node.indexValue.map fun i => .leaf (.index i)
  | .slice => node.sliceQuery.map .leaf
  | .current => .ok (.leaf .current)
  | .not => .ok (.unary .not)
  | .flatten => .ok (.unary .flatten)
  | .keyValPair => .ok (.unary id)
  | .subexpression | .condition => .ok (.binary .subexpression)
  | .pipe => .ok (.binary .pipe)
  | .or => .ok (.binary .or)
  | .and => .ok (.binary .and)
  | .projection => .ok (.binary (.projection (node.source.getD .array)))
  | .comparator => node.operator.map fun op => .binary (.comparator op)
  | .multiSelectList => .ok (.items .list)
  | .multiSelectHash => .ok (.pairs .hash)
  | .functionCall => node.stringValue.map fun name => .items (.call name)
  | .expressionReference => .ok (.quoted (.reference 0))
  | .unknown name => .error (.unknownNode name node)

end Node

namespace Query

mutual

/-- Checks a node that stands below `depth` others. Every expression reference is numbered 0. -/
def check (depth : Nat) : Node → Except CompileError Query
  | ⟨kind, value, children, source⟩ =>
    let node : Node := ⟨kind, value, children, source⟩
    if maxDepth ≤ depth then .error .tooDeep
    else do
      match ← node.rule with
      | .leaf query => return query
      | .unary make =>
        match children with
        | [child] => return make (← check (depth + 1) child)
        | _ => node.wrongChildCount 1
      | .binary make =>
        match children with
        | [left, right] =>
          let left ← check (depth + 1) left
          let right ← check (depth + 1) right
          return make left right
        | _ => node.wrongChildCount 2
      | .items make => return make (← checkAll (depth + 1) children)
      | .pairs make => return make (← checkPairs node (depth + 1) children)
      | .quoted make =>
        match children with
        | [child] => return make child
        | _ => node.wrongChildCount 1

/-- Checks nodes from left to right. -/
def checkAll (depth : Nat) : List Node → Except CompileError (List Query)
  | [] => return []
  | node :: nodes => do
    let query ← check depth node
    let queries ← checkAll depth nodes
    return query :: queries

/-- Checks the children of the multi-select hash `hash` from left to right. The pairs themselves
do not count as a level. -/
def checkPairs (hash : Node) (depth : Nat) :
    List Node → Except CompileError (List (String × Query))
  | [] => return []
  | ⟨kind, value, children, source⟩ :: nodes => do
    let pair : Node := ⟨kind, value, children, source⟩
    if kind ≠ .keyValPair then throw (.malformedNode hash .entryNotPair)
    let key ← pair.stringValue
    match children with
    | [child] =>
      let query ← check depth child
      let entries ← checkPairs hash depth nodes
      return (key, query) :: entries
    | _ => pair.wrongChildCount 1

end

end Query

end PathQuery
