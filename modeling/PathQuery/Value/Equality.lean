import PathQuery.Binary64.Rounding
import PathQuery.Value.Basic

/-!
# Equality of values

Two relations that differ in one respect: `deepEq` compares an integer with a float through the
double nearest to the integer, while `strictEq` keeps the two apart. In both, arrays agree item by
item, objects agree key by key in any order, and expression references agree when they have one
origin.
-/

namespace PathQuery

namespace Value

mutual

/-- Equality in which `mixed` decides between an integer and a float. -/
def agree (mixed : Int → Binary64 → Bool) : Value → Value → Bool
  | .null, .null => true
  | .boolean a, .boolean b => a == b
  | .integer a, .integer b => a == b
  | .integer a, .float b => mixed a b
  | .float a, .integer b => mixed b a
  | .float a, .float b => a.numEq b
  | .string a, .string b => a == b
  | .array as, .array bs => agreeItems mixed as bs
  | .object as, .object bs => as.length == bs.length && agreeEntries mixed as bs
  | .expref a _, .expref b _ => a == b
  | _, _ => false

/-- Arrays of equal length agree item by item. -/
def agreeItems (mixed : Int → Binary64 → Bool) : List Value → List Value → Bool
  | [], [] => true
  | a :: as, b :: bs => a.agree mixed b && agreeItems mixed as bs
  | _, _ => false

/-- Every entry of the first object has a partner in the second. -/
def agreeEntries (mixed : Int → Binary64 → Bool) :
    List (String × Value) → List (String × Value) → Bool
  | [], _ => true
  | (key, a) :: as, bs =>
    (match bs.lookup key with
      | some b => a.agree mixed b
      | none => false) && agreeEntries mixed as bs

end

/-- Equality as queries see it. -/
def deepEq (a b : Value) : Bool := a.agree (fun n x => (Binary64.ofInt n).numEq x) b

/-- Equality that tells an integer from a float. -/
def strictEq (a b : Value) : Bool := a.agree (fun _ _ => false) b

end Value

namespace Node

mutual

/-- Two nodes of one kind and source whose values and children agree. -/
def strictEq : Node → Node → Bool
  | ⟨kind, value, children, source⟩, other =>
    kind == other.kind && source == other.source &&
      (match value, other.value with
        | none, none => true
        | some a, some b => a.strictEq b
        | _, _ => false) && strictEqList children other.children

@[inherit_doc strictEq]
def strictEqList : List Node → List Node → Bool
  | [], [] => true
  | a :: as, b :: bs => a.strictEq b && strictEqList as bs
  | _, _ => false

end

end Node

end PathQuery
