import PathQuery.Host.Basic

/-!
# Slicing arrays

A slice takes the items from a start up to a stop, every `step`-th, backwards when the step is
negative. A bound below zero counts from the end, and bounds outside the array are moved to its
ends.
-/

namespace PathQuery.Slicing

/-- A bound as an index into an array of length `length`: from the end if negative, and then moved
to the nearest place where a slice of this direction can start or stop. -/
def clamp (length step bound : Int) : Int :=
  let bound := if bound < 0 then bound + length else bound
  if 0 < step then max 0 (min length bound) else max (-1) (min (length - 1) bound)

/-- The index of the first item. -/
def first (length step : Int) (start : Option Int) : Int :=
  match start with
  | some bound => clamp length step bound
  | none => if 0 < step then 0 else length - 1

/-- The index that the slice stops before. -/
def last (length step : Int) (stop : Option Int) : Int :=
  match stop with
  | some bound => clamp length step bound
  | none => if 0 < step then length else -1

/-- An index that comes before `stop` in the direction of the slice. -/
def before (step stop i : Int) : Bool := if 0 < step then i < stop else stop < i

/-- The items of a slice whose step is not zero. No slice is longer than its array. -/
def items (array : List Value) (start stop : Option Int) (step : Int) : List Value :=
  let length : Int := array.length
  let start := first length step start
  let stop := last length step stop
  let indices := (List.range array.length).map fun (k : Nat) => start + step * k
  (indices.takeWhile (before step stop)).map fun i => array.getD i.toNat .null

/-- Slices an array; anything else slices to null. -/
def slice (target : Value) (start stop step : Option Int) : Except RuntimeError Value :=
  match target with
  | .array array =>
    let step := step.getD 1
    if step = 0 then .error (.invalidArgument "slice" "step cannot be 0")
    else .ok (.array (items array start stop step))
  | _ => .ok .null

end PathQuery.Slicing
