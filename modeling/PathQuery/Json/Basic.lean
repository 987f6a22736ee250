import PathQuery.Binary64.Basic
import PathQuery.Entries

/-!
# JSON values

Objects keep the order of their members, and a number remembers whether it was written as an
integer.
-/

namespace PathQuery

inductive Json where
  | null
  | bool (b : Bool)
  | integer (n : Int)
  | float (x : Binary64)
  | string (s : String)
  | array (items : List Json)
  | object (members : List (String × Json))

namespace Json

/-- The member of an object with the given key. -/
def get? (key : String) : Json → Option Json
  | .object members => members.lookup key
  | _ => none

mutual

/-- How many arrays and objects stand inside one another. -/
def nesting : Json → Nat
  | .array items => nestingItems items + 1
  | .object members => nestingMembers members + 1
  | _ => 0

@[inherit_doc nesting]
def nestingItems : List Json → Nat
  | [] => 0
  | item :: items => max item.nesting (nestingItems items)

@[inherit_doc nesting]
def nestingMembers : List (String × Json) → Nat
  | [] => 0
  | (_, item) :: members => max item.nesting (nestingMembers members)

end

end Json

end PathQuery
