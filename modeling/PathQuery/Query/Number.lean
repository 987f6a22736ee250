import PathQuery.Query.Basic

/-!
# Numbering expression references

The expression references of a query are numbered from left to right, from a number on that no
other compilation has given out, so that each has a number of its own.
-/

namespace PathQuery.Query

mutual

/-- How many expression references a query has. Those inside the node of another are not counted.
-/
def references : Query → Nat
  | .literal _ | .field _ | .index _ | .current | .slice _ _ _ => 0
  | .not query | .flatten query => query.references
  | .subexpression left right | .pipe left right | .or left right | .and left right
  | .projection _ left right | .comparator _ left right => left.references + right.references
  | .list items => referencesAll items
  | .hash entries => referencesEntries entries
  | .call _ args => referencesAll args
  | .reference _ _ => 1

@[inherit_doc references]
def referencesAll : List Query → Nat
  | [] => 0
  | query :: queries => query.references + referencesAll queries

@[inherit_doc references]
def referencesEntries : List (String × Query) → Nat
  | [] => 0
  | (_, query) :: entries => query.references + referencesEntries entries

end

mutual

/-- The query with its expression references numbered from `n` on. -/
def number (n : Nat) : Query → Query
  | .subexpression left right =>
    .subexpression (left.number n) (right.number (n + left.references))
  | .pipe left right => .pipe (left.number n) (right.number (n + left.references))
  | .or left right => .or (left.number n) (right.number (n + left.references))
  | .and left right => .and (left.number n) (right.number (n + left.references))
  | .projection source left right =>
    .projection source (left.number n) (right.number (n + left.references))
  | .comparator op left right =>
    .comparator op (left.number n) (right.number (n + left.references))
  | .not query => .not (query.number n)
  | .flatten query => .flatten (query.number n)
  | .list items => .list (numberAll n items)
  | .hash entries => .hash (numberEntries n entries)
  | .call name args => .call name (numberAll n args)
  | .reference _ node => .reference n node
  | .literal value => .literal value
  | .field name => .field name
  | .index i => .index i
  | .current => .current
  | .slice start stop step => .slice start stop step

@[inherit_doc number]
def numberAll (n : Nat) : List Query → List Query
  | [] => []
  | query :: queries => query.number n :: numberAll (n + query.references) queries

@[inherit_doc number]
def numberEntries (n : Nat) : List (String × Query) → List (String × Query)
  | [] => []
  | (key, query) :: entries =>
    (key, query.number n) :: numberEntries (n + query.references) entries

end

end PathQuery.Query
