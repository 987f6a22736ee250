import PathQuery.Binary64.Rounding
import PathQuery.Json.Basic
import PathQuery.Value.Basic

/-!
# Values and JSON

An integer of a JSON text that does not fit in 64 signed bits becomes a float. What JSON cannot
hold, an expression reference or a float that is not finite, is written as null.
-/

namespace PathQuery.Value

/-- Integers are held in 64 signed bits: from `-2 ^ 63` up to `2 ^ 63 - 1`. -/
def fits (n : Int) : Bool := -0x8000000000000000 ≤ n && n < 0x8000000000000000

mutual

def ofJson : Json → Value
  | .null => .null
  | .bool b => .boolean b
  | .integer n => if fits n then .integer n else .float (Binary64.ofInt n)
  | .float x => .float x
  | .string s => .string s
  | .array items => .array (ofJsonItems items)
  | .object members => .object (ofJsonMembers members)

def ofJsonItems : List Json → List Value
  | [] => []
  | item :: items => ofJson item :: ofJsonItems items

def ofJsonMembers : List (String × Json) → List (String × Value)
  | [] => []
  | (key, item) :: members => (key, ofJson item) :: ofJsonMembers members

end

mutual

def toJson : Value → Json
  | .null => .null
  | .boolean b => .bool b
  | .integer n => .integer n
  | .float x => if x.isFinite then .float x else .null
  | .string s => .string s
  | .array items => .array (toJsonItems items)
  | .object entries => .object (toJsonEntries entries)
  | .expref _ _ => .null

def toJsonItems : List Value → List Json
  | [] => []
  | item :: items => item.toJson :: toJsonItems items

def toJsonEntries : List (String × Value) → List (String × Json)
  | [] => []
  | (key, item) :: entries => (key, item.toJson) :: toJsonEntries entries

end

end PathQuery.Value
