import PathQuery.Value.Basic

/-!
# Queries

A query is a syntax tree that has passed the check: every construct has the operands it needs, so
running or compiling a query has no malformed case to consider.
-/

namespace PathQuery

inductive Query where
  | literal (value : Value)
  | field (name : String)
  | index (i : Int)
  /-- The value the query is applied to. -/
  | current
  /-- The answer of `right` on the answer of `left`, unless that is null. -/
  | subexpression (left right : Query)
  /-- The answer of `right` on the answer of `left`. -/
  | pipe (left right : Query)
  | or (left right : Query)
  | and (left right : Query)
  | not (query : Query)
  /-- Arrays inside the array that `query` gives are opened, one level deep. -/
  | flatten (query : Query)
  /-- The answers of `right` on the elements of the answer of `left`, those that are null left out. -/
  | projection (source : SourceKind) (left right : Query)
  /-- The value the query is applied to if the comparison holds, else null. -/
  | comparator (op : Comparator) (left right : Query)
  | list (items : List Query)
  | hash (entries : List (String × Query))
  | call (name : String) (args : List Query)
  | slice (start stop step : Option Int)
  /-- The expression reference of number `site`. Its node is kept as it is. -/
  | reference (site : Nat) (node : Node)

namespace Query

/-- The values that a slice passes to the host's function besides the sliced one. -/
def bounds (start stop step : Option Int) : List Value :=
  [Value.ofInt? start, Value.ofInt? stop, Value.ofInt? step]

end Query

end PathQuery
