import PathQuery.Value.Basic

/-!
# Code

A procedure's body is a tree of statements over numbered slots. Slot 0 holds the running result,
which is also what `@` gives. Slot 1 holds the current context, a baseline that starts as the root
and that only pipes move. The others are temporaries.
-/

namespace PathQuery

/-- A storage cell of a procedure's frame. -/
structure Slot where
  index : Nat
deriving DecidableEq

namespace Slot

/-- The running result: a procedure's parameter and its answer. -/
def value : Slot := ⟨0⟩

/-- The current context: the value that the last pipe handed on. -/
def current : Slot := ⟨1⟩

end Slot

inductive Operand where
  | slot (slot : Slot)
  | literal (value : Value)

inductive Expr where
  | literal (value : Value)
  | load (slot : Slot)
  /-- A member of an object, null when it is absent or there is no object. -/
  | field (source : Slot) (name : String)
  /-- An item of an array, null when it is out of range or there is no array. -/
  | element (source : Slot) (index : Operand)
  /-- The length of an array plus `delta`, null when there is no array. -/
  | offset (source : Slot) (delta : Int)
  | list (items : List Operand)
  | emptyObject
  | compare (op : Comparator) (left right : Slot)
  /-- The negated truth of a slot. -/
  | not (slot : Slot)
  /-- The host's function `name`, applied to the items of the array in `args`. -/
  | call (name : String) (args : Slot)
  /-- The expression reference of number `site`. -/
  | expref (site : Nat) (node : Node)

inductive Test where
  | isNull (slot : Slot)
  | isSequence (slot : Slot)
  | isMapping (slot : Slot)
  | falsy (slot : Slot)
  /-- The slot holds the boolean true. -/
  | isTrue (slot : Slot)
  | emptySequence (slot : Slot)
  | nonEmptySequence (slot : Slot)
  | not (test : Test)

inductive Stmt where
  | assign (target : Slot) (expr : Expr)
  | branch (test : Test) (yes no : List Stmt)
  /-- Runs `body` for each item of an array or value of an object. -/
  | forEach (item source : Slot) (body : List Stmt)
  | push (list item : Slot)
  | extend (list items : Slot)
  | insert (object : Slot) (key : String) (item : Slot)

namespace Stmt

def copy (target source : Slot) : Stmt := .assign target (.load source)

/-- A branch that does nothing when its test fails. -/
def when (test : Test) (yes : List Stmt) : Stmt := .branch test yes []

end Stmt

end PathQuery
