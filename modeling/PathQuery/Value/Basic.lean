import PathQuery.Binary64.Basic
import PathQuery.Comparator
import PathQuery.Entries
import PathQuery.Node.Kind

/-!
# Values and syntax nodes

The data a query runs on, and the nodes a query is written with. The two types are mutual: a node
may carry a value, and an expression reference is a value that carries a node.

An expression reference is identified by where it came from, not by the node it carries. Two
copies of one reference are equal; two references made apart differ, however alike their nodes
are. So the expression references of compiled code are numbered across all compilations: the same
tree, compiled twice, makes references of different numbers.
-/

namespace PathQuery

/-- Where an expression reference came from. -/
inductive Origin where
  /-- It was handed in from outside, as the `n`-th of its kind. -/
  | given (n : Nat)
  /-- It was made by compiled code, at the expression reference that was compiled as the `n`-th of
  all. The host that the code ran under stands behind it. -/
  | site (n : Nat)
deriving DecidableEq

mutual

/-- A value. The entries of an object have distinct keys, in the order in which they were
inserted. -/
inductive Value where
  | null
  | boolean (b : Bool)
  | integer (n : Int)
  | float (x : Binary64)
  | string (s : String)
  | array (items : List Value)
  | object (entries : List (String × Value))
  | expref (origin : Origin) (node : Node)

/-- A syntax node: its kind, and the value, children and projection source that the kind calls
for. -/
structure Node where
  kind : Kind
  value : Option Value
  children : List Node
  source : Option SourceKind

end

namespace Value

/-- The name of a value's type in messages. -/
def typeName : Value → String
  | .null => "null"
  | .boolean _ => "boolean"
  | .integer _ | .float _ => "number"
  | .string _ => "string"
  | .array _ => "array"
  | .object _ => "object"
  | .expref _ _ => "expref"

def isNull : Value → Bool
  | .null => true
  | _ => false

def isSequence : Value → Bool
  | .array _ => true
  | _ => false

def isMapping : Value → Bool
  | .object _ => true
  | _ => false

/-- Null, false, and an empty string, array or object count as false; all else counts as true. -/
def truthy : Value → Bool
  | .null => false
  | .boolean b => b
  | .string s => !s.isEmpty
  | .array items => !items.isEmpty
  | .object entries => !entries.isEmpty
  | .integer _ | .float _ | .expref _ _ => true

def asInt? : Value → Option Int
  | .integer n => some n
  | _ => none

def asArray? : Value → Option (List Value)
  | .array items => some items
  | _ => none

/-- The number of items, entries or characters. -/
def length? : Value → Option Nat
  | .array items => some items.length
  | .object entries => some entries.length
  | .string s => some s.length
  | _ => none

/-- What a loop over the value runs through: the items of an array or the values of an object. -/
def elements : Value → List Value
  | .array items => items
  | .object entries => Entries.values entries
  | _ => []

/-- The member of an object, or null. -/
def field (key : String) : Value → Value
  | .object entries => (entries.lookup key).getD .null
  | _ => .null

/-- The item of an array at an index counted from its start, or null. -/
def element (value index : Value) : Value :=
  match value, index with
  | .array items, .integer i => if 0 ≤ i then items.getD i.toNat .null else .null
  | _, _ => .null

/-- The item of an array at an index, where a negative index counts from the end, or null. -/
def item (i : Int) : Value → Value
  | .array items =>
    let i := if i < 0 then items.length + i else i
    if 0 ≤ i then items.getD i.toNat .null else .null
  | _ => .null

/-- The items of an array, or the value alone if it is none. -/
def opened : Value → List Value
  | .array items => items
  | value => [value]

/-- An integer, or null where there is none. -/
def ofInt? : Option Int → Value
  | some n => .integer n
  | none => .null

end Value

end PathQuery
