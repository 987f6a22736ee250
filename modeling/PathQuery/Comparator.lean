/-!
# Comparison operators
-/

namespace PathQuery

inductive Comparator where
  | equal
  | notEqual
  | less
  | lessEqual
  | greater
  | greaterEqual
deriving DecidableEq

namespace Comparator

def symbol : Comparator → String
  | .equal => "=="
  | .notEqual => "!="
  | .less => "<"
  | .lessEqual => "<="
  | .greater => ">"
  | .greaterEqual => ">="

/-- Every accepted spelling of an operator: its symbol and its short name. -/
def spellings : List (String × Comparator) :=
  [("==", .equal), ("eq", .equal), ("!=", .notEqual), ("ne", .notEqual),
    ("<", .less), ("lt", .less), ("<=", .lessEqual), ("lte", .lessEqual),
    (">", .greater), ("gt", .greater), (">=", .greaterEqual), ("gte", .greaterEqual)]

def ofName? (name : String) : Option Comparator := spellings.lookup name

/-- Ordering operators compare integers only. -/
def isOrdering : Comparator → Bool
  | .equal | .notEqual => false
  | _ => true

def compareInts (op : Comparator) (a b : Int) : Bool :=
  match op with
  | .equal => a == b
  | .notEqual => a != b
  | .less => a < b
  | .lessEqual => a ≤ b
  | .greater => b < a
  | .greaterEqual => b ≤ a

end Comparator

end PathQuery
