/-!
# Node kinds

Every kind of syntax node has a canonical name; a few have a second spelling. Dashes and
underscores are interchangeable in a spelling. A name that spells no kind is kept as it was
written.
-/

namespace PathQuery

inductive Kind where
  | field
  | index
  | literal
  | pipe
  | or
  | and
  | not
  | subexpression
  | multiSelectList
  | multiSelectHash
  | keyValPair
  | functionCall
  | slice
  | current
  | expressionReference
  | flatten
  | projection
  | condition
  | comparator
  | unknown (name : String)
deriving DecidableEq

namespace Kind

/-- The canonical name. -/
def name : Kind → String
  | .field => "field"
  | .index => "index"
  | .literal => "literal"
  | .pipe => "pipe"
  | .or => "or"
  | .and => "and"
  | .not => "not"
  | .subexpression => "subexpression"
  | .multiSelectList => "multi_select_list"
  | .multiSelectHash => "multi_select_hash"
  | .keyValPair => "key_val_pair"
  | .functionCall => "function_call"
  | .slice => "slice"
  | .current => "current"
  | .expressionReference => "expression_reference"
  | .flatten => "flatten"
  | .projection => "projection"
  | .condition => "condition"
  | .comparator => "comparator"
  | .unknown name => name

/-- The kinds that have a rule of their own. -/
def known : List Kind :=
  [.field, .index, .literal, .pipe, .or, .and, .not, .subexpression, .multiSelectList,
    .multiSelectHash, .keyValPair, .functionCall, .slice, .current, .expressionReference, .flatten,
    .projection, .condition, .comparator]

/-- Second spellings. -/
def aliases : List (String × Kind) :=
  [("or_expression", .or), ("and_expression", .and), ("not_expression", .not),
    ("multi_select_dict", .multiSelectHash), ("function_expression", .functionCall),
    ("identity", .current), ("expref", .expressionReference)]

def spellings : List (String × Kind) := known.map (fun kind => (kind.name, kind)) ++ aliases

/-- The spelling with every dash made an underscore. -/
def underscored (name : String) : String :=
  String.ofList (name.toList.map fun c => if c == '-' then '_' else c)

def ofName (name : String) : Kind := (spellings.lookup (underscored name)).getD (.unknown name)

end Kind

/-- What a projection runs over. -/
inductive SourceKind where
  | array
  | object
deriving DecidableEq

namespace SourceKind

def name : SourceKind → String
  | .array => "array"
  | .object => "object"

def ofName? (name : String) : Option SourceKind :=
  if name = "array" then some .array else if name = "object" then some .object else none

end SourceKind

end PathQuery
