import PathQuery.Value.Basic

/-!
# Making nodes

One constructor for each kind of node, with the value and children that the kind calls for.
-/

namespace PathQuery.Node

/-- A node that has nothing but its kind. -/
def ofKind (kind : Kind) : Node := ⟨kind, none, [], none⟩

def withValue (value : Value) (node : Node) : Node := { node with value := some value }

def withChildren (children : List Node) (node : Node) : Node := { node with children }

def withSource (source : Option SourceKind) (node : Node) : Node := { node with source }

/-- The value of a node when it is a string: a key, a function's name or an operator. -/
def name? (node : Node) : Option String :=
  match node.value with
  | some (.string s) => some s
  | _ => none

def field (name : String) : Node := (ofKind .field).withValue (.string name)

def index (i : Int) : Node := (ofKind .index).withValue (.integer i)

def literal (value : Value) : Node := (ofKind .literal).withValue value

def current : Node := ofKind .current

/-- A node with two children: a pipe, a subexpression, a condition, a disjunction or a
conjunction. -/
def binary (kind : Kind) (left right : Node) : Node := (ofKind kind).withChildren [left, right]

def not (child : Node) : Node := (ofKind .not).withChildren [child]

def flatten (child : Node) : Node := (ofKind .flatten).withChildren [child]

def reference (child : Node) : Node := (ofKind .expressionReference).withChildren [child]

def projection (source : Option SourceKind) (left right : Node) : Node :=
  (binary .projection left right).withSource source

def comparator (op : Comparator) (left right : Node) : Node :=
  (binary .comparator left right).withValue (.string op.symbol)

def multiSelectList (items : List Node) : Node := (ofKind .multiSelectList).withChildren items

def pair (key : String) (child : Node) : Node :=
  ((ofKind .keyValPair).withValue (.string key)).withChildren [child]

def multiSelectHash (entries : List (String × Node)) : Node :=
  (ofKind .multiSelectHash).withChildren (entries.map fun entry => pair entry.1 entry.2)

def functionCall (name : String) (args : List Node) : Node :=
  ((ofKind .functionCall).withValue (.string name)).withChildren args

def slice (start stop step : Option Int) : Node :=
  (ofKind .slice).withValue (.array [Value.ofInt? start, Value.ofInt? stop, Value.ofInt? step])

end PathQuery.Node
