import PathQuery.Code.Basic
import PathQuery.Query.Basic

/-!
# Lowering queries to code

A query becomes a block of statements that replaces the running result by the query's answer.
Constructs that evaluate several queries on one value keep that value, and the current context, in
temporaries and restore them before each.

The temporaries of a query stand in the frame one after the other, in the order in which
`temporaries` lists their names. So the code of a query depends only on the number of the first of
them, and the code of its parts follows from how many temporaries the parts before them take.
-/

namespace PathQuery.Query

mutual

/-- The stems of the names of the temporaries that a query needs, in the order of their slots. -/
def temporaries : Query → List String
  | .literal _ | .field _ | .current | .reference _ _ => []
  | .index i => if i < 0 then ["index"] else []
  | .subexpression left right | .pipe left right => left.temporaries ++ right.temporaries
  | .or left right | .and left right => "saved" :: (left.temporaries ++ right.temporaries)
  | .not query => query.temporaries
  | .flatten query => query.temporaries ++ ["flattened", "element"]
  | .projection _ left right =>
    left.temporaries ++ ["base", "collected", "element"] ++ right.temporaries
  | .comparator _ left right =>
    ["saved", "saved_current", "left", "right", "result"] ++ left.temporaries ++ right.temporaries
  | .list items => ["base", "base_current", "selected"] ++ temporariesAll items
  | .hash entries => ["base", "base_current", "selected"] ++ temporariesEntries entries
  | .call _ args => ["base", "base_current", "args"] ++ temporariesAll args
  | .slice _ _ _ => ["args"]

@[inherit_doc temporaries]
def temporariesAll : List Query → List String
  | [] => []
  | query :: queries => query.temporaries ++ temporariesAll queries

@[inherit_doc temporaries]
def temporariesEntries : List (String × Query) → List String
  | [] => []
  | (_, query) :: entries => query.temporaries ++ temporariesEntries entries

end

/-- How many temporaries a query needs. -/
def width (query : Query) : Nat := query.temporaries.length

/-- Sets the running result to null. -/
def setNull : Stmt := .assign .value (.literal .null)

/-- The test for what a projection runs over. -/
def guard : SourceKind → Test
  | .array => .isSequence .value
  | .object => .isMapping .value

/-- Takes the item at index `i` of the running result. A negative index is first counted from the
end, in slot `position`. -/
def lowerIndex (position : Slot) (i : Int) : List Stmt :=
  if i < 0 then
    [.assign position (.offset .value i), .assign .value (.element .value (.slot position))]
  else [.assign .value (.element .value (.literal (.integer i)))]

/-- The code of a disjunction or conjunction. The answer of the left side stays unless `test` holds
of it; then the right side runs, on the running result that was saved. -/
def lowerShortCircuit (saved : Slot) (test : Test) (left right : List Stmt) : List Stmt :=
  .copy saved .value :: left ++ [.when test (.copy .value saved :: right)]

/-- Appends the array `element` to `flattened` item by item, and anything else as it is. -/
def lowerSplice (flattened element : Slot) : Stmt :=
  .branch (.nonEmptySequence element) [.extend flattened element]
    [.when (.not (.emptySequence element)) [.push flattened element]]

/-- The code that opens the arrays in the running result. -/
def lowerFlatten (flattened element : Slot) : Stmt :=
  .branch (.not (.isSequence .value)) [setNull]
    [.assign flattened (.list []),
      .forEach element .value [lowerSplice flattened element],
      .copy .value flattened]

/-- The code that runs `body` on each element of the running result and collects the answers. -/
def lowerProjection (source : SourceKind) (base collected element : Slot) (body : List Stmt) :
    Stmt :=
  .branch (.not (guard source)) [setNull]
    [.copy base .value,
      .assign collected (.list []),
      .forEach element base
        (.copy .value element :: body ++
          [.when (.not (.isNull .value)) [.push collected .value]]),
      .copy .value collected]

/-- The code between two sides of a comparison: keeps the running result in `side` and goes back
to where the comparison started. -/
def lowerSide (saved savedCurrent side : Slot) : List Stmt :=
  [.copy side .value, .copy .value saved, .copy .current savedCurrent]

/-- The code that ends a comparison. -/
def lowerComparison (op : Comparator) (saved savedCurrent left right result : Slot) : List Stmt :=
  [.copy right .value,
    .assign result (.compare op left right),
    .branch (.isTrue result) [.copy .value saved] [setNull],
    .copy .current savedCurrent]

/-- The code of a slice. -/
def lowerSlice (args : Slot) (start stop step : Option Int) : List Stmt :=
  [.assign args (.list (.slot .value :: (bounds start stop step).map .literal)),
    .assign .value (.call "slice" args)]

mutual

/-- The code of a query whose temporaries start at slot `n`. -/
def lower (n : Nat) : Query → List Stmt
  | .literal value => [.assign .value (.literal value)]
  | .field name => [.branch (.isMapping .value) [.assign .value (.field .value name)] [setNull]]
  | .index i => [.branch (.isSequence .value) (lowerIndex ⟨n⟩ i) [setNull]]
  | .current => []
  | .subexpression left right =>
    left.lower n ++ [.when (.not (.isNull .value)) (right.lower (n + left.width))]
  | .pipe left right => left.lower n ++ .copy .current .value :: right.lower (n + left.width)
  | .or left right =>
    lowerShortCircuit ⟨n⟩ (.falsy .value) (left.lower (n + 1)) (right.lower (n + 1 + left.width))
  | .and left right =>
    lowerShortCircuit ⟨n⟩ (.not (.falsy .value)) (left.lower (n + 1))
      (right.lower (n + 1 + left.width))
  | .not query => query.lower n ++ [.assign .value (.not .value)]
  | .flatten query => query.lower n ++ [lowerFlatten ⟨n + query.width⟩ ⟨n + query.width + 1⟩]
  | .projection source left right =>
    let m := n + left.width
    left.lower n ++ [lowerProjection source ⟨m⟩ ⟨m + 1⟩ ⟨m + 2⟩ (right.lower (m + 3))]
  | .comparator op left right =>
    .copy ⟨n⟩ .value :: .copy ⟨n + 1⟩ .current :: left.lower (n + 5) ++
      lowerSide ⟨n⟩ ⟨n + 1⟩ ⟨n + 2⟩ ++ right.lower (n + 5 + left.width) ++
      lowerComparison op ⟨n⟩ ⟨n + 1⟩ ⟨n + 2⟩ ⟨n + 3⟩ ⟨n + 4⟩
  | .list items =>
    [.when (.not (.isNull .value))
      (.copy ⟨n⟩ .value :: .copy ⟨n + 1⟩ .current :: .assign ⟨n + 2⟩ (.list []) ::
        lowerItems ⟨n⟩ ⟨n + 1⟩ ⟨n + 2⟩ (n + 3) items ++
        [.copy .value ⟨n + 2⟩, .copy .current ⟨n + 1⟩])]
  | .hash entries =>
    [.when (.not (.isNull .value))
      (.copy ⟨n⟩ .value :: .copy ⟨n + 1⟩ .current :: .assign ⟨n + 2⟩ .emptyObject ::
        lowerEntries ⟨n⟩ ⟨n + 1⟩ ⟨n + 2⟩ (n + 3) entries ++
        [.copy .value ⟨n + 2⟩, .copy .current ⟨n + 1⟩])]
  | .call name args =>
    .copy ⟨n⟩ .value :: .copy ⟨n + 1⟩ .current :: .assign ⟨n + 2⟩ (.list []) ::
      lowerItems ⟨n⟩ ⟨n + 1⟩ ⟨n + 2⟩ (n + 3) args ++
      [.copy .current ⟨n + 1⟩, .assign .value (.call name ⟨n + 2⟩)]
  | .slice start stop step => lowerSlice ⟨n⟩ start stop step
  | .reference site node => [.assign .value (.expref site node)]

/-- The code that runs each query on the value in `base` and appends its answer to `list`; the
temporaries of the queries start at slot `n`. -/
def lowerItems (base baseCurrent list : Slot) (n : Nat) : List Query → List Stmt
  | [] => []
  | query :: queries =>
    .copy .value base :: .copy .current baseCurrent :: query.lower n ++
      .push list .value :: lowerItems base baseCurrent list (n + query.width) queries

/-- The code that runs each query on the value in `base` and inserts its answer into `object`
under its key; the temporaries of the queries start at slot `n`. -/
def lowerEntries (base baseCurrent object : Slot) (n : Nat) : List (String × Query) → List Stmt
  | [] => []
  | (key, query) :: entries =>
    .copy .value base :: .copy .current baseCurrent :: query.lower n ++
      .insert object key .value :: lowerEntries base baseCurrent object (n + query.width) entries

end

end PathQuery.Query
