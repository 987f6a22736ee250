import Mathlib
import PathQuery.Proofs.Correctness
import PathQuery.Value.Interchange

/-!
# Slices

What a slice is, and how it is found:

* `Slicing.IsSlice`: the items at `start`, `start + step`, `start + 2 * step` and so on, one for
  each number `k` with `0 ≤ k < (stop - start) / step`. This is the Python slice
  `array[start:stop:step]`;
* `Slicing.Walk`: going through an array one step after the other while the index is before the
  stop. A walk ends, and it looks at no index outside of the array;
* `Slicing.walk_items`: the items of a slice are those that its walk collects. A walk stays inside
  the array (`Slicing.Inside`), so it makes no more steps than there are items;
* `Procedure.call_slice`: what a compiled slice answers on every value.
-/

namespace PathQuery

namespace Slicing

/-! ## What a slice is -/

/-- The lowest index that a slice of this direction may start or stop at. -/
def lowest (step : Int) : Int := if step < 0 then -1 else 0

/-- The highest index that a slice of this direction may start or stop at. -/
def highest (length step : Int) : Int := if step < 0 then length - 1 else length

/-- The index that a bound stands for. A negative bound counts from the end of the array, and a
bound beyond one of its ends stands for that end. -/
def place (length step bound : Int) : Int :=
  if bound < 0 then max (lowest step) (length + bound) else min (highest length step) bound

/-- The index that a slice starts at: from one of the ends if there is no bound. -/
def startPlace (length step : Int) : Option Int → Int
  | some bound => place length step bound
  | none => if step < 0 then highest length step else lowest step

/-- The index that a slice stops before: at the other end if there is no bound. -/
def stopPlace (length step : Int) : Option Int → Int
  | some bound => place length step bound
  | none => if step < 0 then lowest step else highest length step

/-- The index of the `k`-th item of a slice. -/
def indexOf (array : List Value) (start : Option Int) (step : Int) (k : Nat) : Int :=
  startPlace array.length step start + k * step

/-- The items are `array[start:stop:step]`: those whose index is `start + k * step` for a `k` with
`0 ≤ k < (stop - start) / step`, in the order of `k`. All these indices are inside the array. -/
structure IsSlice (array : List Value) (start stop : Option Int) (step : Int)
    (items : List Value) : Prop where
  length : ∀ k : Nat, k < items.length ↔
    (k : ℚ) < ((stopPlace array.length step stop - startPlace array.length step start : Int) : ℚ) /
      step
  item : ∀ k < items.length, 0 ≤ indexOf array start step k ∧
    items[k]? = array[(indexOf array start step k).toNat]?

/-! ## Walking through an array -/

/-- The walk that is at index `i` collects the items: it takes the item there and goes one step on,
as long as the index is before `stop`. There has to be an item wherever it looks. -/
inductive Walk (array : List Value) (step stop : Int) : Int → List Value → Prop
  | ends {i : Int} : before step stop i = false → Walk array step stop i []
  | next {i : Int} {item : Value} {items : List Value} : before step stop i = true → 0 ≤ i →
    array[i.toNat]? = some item → Walk array step stop (i + step) items →
    Walk array step stop i (item :: items)

/-- A walk that is at index `i` will not leave the array before it stops. -/
structure Inside (length step stop i : Int) : Prop where
  forwards : 0 < step → 0 ≤ i ∧ stop ≤ length
  backwards : step < 0 → i < length ∧ -1 ≤ stop

section

variable {array items : List Value} {length step stop i : Int}

theorem before_iff (hs : step ≠ 0) :
    before step stop i = true ↔ 0 < step ∧ i < stop ∨ step < 0 ∧ stop < i := by
  by_cases h : 0 < step
  · simp [before, h]
    omega
  · simp [before, h]
    omega

theorem Inside.next (h : Inside length step stop i) : Inside length step stop (i + step) where
  forwards hs := by
    have := h.forwards hs
    omega
  backwards hs := by
    have := h.backwards hs
    omega

theorem Inside.index_mem (h : Inside length step stop i) (hs : step ≠ 0)
    (hb : before step stop i = true) : 0 ≤ i ∧ i < length := by
  rcases (before_iff hs).1 hb with ⟨hpos, hlt⟩ | ⟨hneg, hlt⟩
  · have := h.forwards hpos
    omega
  · have := h.backwards hneg
    omega

/-- After as many steps as the array has items, a walk is not before its stop any more. -/
theorem Inside.before_eq_false {n : Nat} (h : Inside n step stop i) (hs : step ≠ 0) :
    before step stop (i + step * n) = false := by
  rw [Bool.eq_false_iff, Ne, before_iff hs]
  rintro (⟨hpos, hlt⟩ | ⟨hneg, hlt⟩)
  · have hfar : (n : Int) ≤ step * n := by nlinarith
    have := h.forwards hpos
    omega
  · have hfar : step * n ≤ -(n : Int) := by nlinarith
    have := h.backwards hneg
    omega

/-- The indices from `i` on, `n` of them at most, make a walk if that is enough of them. -/
theorem walk_takeWhile (hs : step ≠ 0) {n : Nat} (h : Inside array.length step stop i)
    (hn : before step stop (i + step * n) = false) :
    Walk array step stop i
      ((((List.range n).map fun k : Nat => i + step * k).takeWhile (before step stop)).map
        fun i => array.getD i.toNat .null) := by
  induction n generalizing i with
  | zero =>
    rw [Nat.cast_zero, mul_zero, add_zero] at hn
    exact .ends hn
  | succ n ih =>
    have hshift : ((List.range (n + 1)).map fun k : Nat => i + step * k) =
        i :: (List.range n).map fun k : Nat => i + step + step * k := by
      rw [List.range_succ_eq_map, List.map_cons, List.map_map, Nat.cast_zero, mul_zero, add_zero]
      refine congrArg _ (List.map_congr_left fun k _ => ?_)
      simp only [Function.comp_apply, Nat.cast_succ]
      ring
    rw [hshift]
    cases hb : before step stop i with
    | false =>
      rw [List.takeWhile_cons_of_neg (by simp [hb])]
      exact .ends hb
    | true =>
      obtain ⟨h0, hlt⟩ := h.index_mem hs hb
      rw [List.takeWhile_cons_of_pos hb, List.map_cons]
      refine .next hb h0 ?_ (ih h.next ?_)
      · have hi : i.toNat < array.length := by omega
        rw [List.getD_eq_getElem _ _ hi, List.getElem?_eq_getElem hi]
      · rw [← hn, Nat.cast_succ]
        ring_nf

/-- A walk makes a step for each `k` with `0 ≤ k < (stop - i) / step`. -/
theorem Walk.lt_length_iff (hs : step ≠ 0) (h : Walk array step stop i items) (k : Nat) :
    k < items.length ↔ (k : ℚ) < ((stop - i : Int) : ℚ) / step := by
  have hbefore (i : Int) : before step stop i = true ↔ (0 : ℚ) < ((stop - i : Int) : ℚ) / step := by
    rw [before_iff hs, div_pos_iff, Int.cast_pos, Int.cast_pos, Int.cast_lt_zero, Int.cast_lt_zero]
    omega
  induction h generalizing k with
  | @ends i hb =>
    have hle : ((stop - i : Int) : ℚ) / step ≤ 0 := by
      rw [← not_lt, ← hbefore, hb]
      exact Bool.false_ne_true
    have hk : (0 : ℚ) ≤ k := Nat.cast_nonneg k
    simp only [List.length_nil, Nat.not_lt_zero, false_iff, not_lt]
    exact hle.trans hk
  | @next i item items hb _ _ _ ih =>
    cases k with
    | zero => simpa using (hbefore i).1 hb
    | succ k =>
      have hstep : ((stop - i : Int) : ℚ) / step = ((stop - (i + step) : Int) : ℚ) / step + 1 := by
        have : (step : ℚ) ≠ 0 := Int.cast_ne_zero.2 hs
        field_simp
        push_cast
        ring
      rw [List.length_cons, Nat.succ_lt_succ_iff, hstep, Nat.cast_succ, add_lt_add_iff_right]
      exact ih k

/-- The `k`-th item of a walk is the one `k` steps on. -/
theorem Walk.getElem?_eq (h : Walk array step stop i items) {k : Nat} (hk : k < items.length) :
    0 ≤ i + k * step ∧ items[k]? = array[(i + k * step).toNat]? := by
  induction h generalizing k with
  | ends => cases hk
  | @next i item items _ h0 hi _ ih =>
    cases k with
    | zero => simpa [hi] using h0
    | succ k =>
      have hshift : i + step + k * step = i + (k + 1 : Nat) * step := by
        push_cast
        ring
      rw [← hshift, List.getElem?_cons_succ]
      exact ih (Nat.lt_of_succ_lt_succ hk)

/-! ## The items of a slice -/

theorem first_eq (hl : 0 ≤ length) (hs : step ≠ 0) (start : Option Int) :
    first length step start = startPlace length step start := by
  cases start with
  | none =>
    simp only [first, startPlace, lowest, highest]
    omega
  | some bound =>
    simp only [first, clamp, startPlace, place, lowest, highest]
    omega

theorem last_eq (hl : 0 ≤ length) (hs : step ≠ 0) (stop : Option Int) :
    last length step stop = stopPlace length step stop := by
  cases stop with
  | none =>
    simp only [last, stopPlace, lowest, highest]
    omega
  | some bound =>
    simp only [last, clamp, stopPlace, place, lowest, highest]
    omega

theorem inside_first (hl : 0 ≤ length) (start stop : Option Int) :
    Inside length step (last length step stop) (first length step start) where
  forwards hs := by
    constructor
    · cases start with
      | none => simp only [first]; omega
      | some bound => simp only [first, clamp]; omega
    · cases stop with
      | none => simp only [last]; omega
      | some bound => simp only [last, clamp]; omega
  backwards hs := by
    constructor
    · cases start with
      | none => simp only [first]; omega
      | some bound => simp only [first, clamp]; omega
    · cases stop with
      | none => simp only [last]; omega
      | some bound => simp only [last, clamp]; omega

/-- The items of a slice are what the walk from its start to its stop collects. -/
theorem walk_items (array : List Value) (start stop : Option Int) (hs : step ≠ 0) :
    Walk array step (last array.length step stop) (first array.length step start)
      (Slicing.items array start stop step) := by
  have hinside : Inside array.length step (last array.length step stop)
      (first array.length step start) := inside_first (Int.natCast_nonneg _) start stop
  exact walk_takeWhile hs hinside (hinside.before_eq_false hs)

theorem isSlice_items (array : List Value) (start stop : Option Int) (hs : step ≠ 0) :
    IsSlice array start stop step (Slicing.items array start stop step) := by
  have hwalk := walk_items array start stop hs
  rw [first_eq (Int.natCast_nonneg _) hs, last_eq (Int.natCast_nonneg _) hs] at hwalk
  exact ⟨hwalk.lt_length_iff hs, fun k hk => hwalk.getElem?_eq hk⟩

/-- If a slice fits into 64 bits, so does every index that its walk steps to. -/
theorem IsSlice.fits_index {start stop : Option Int} (h : IsSlice array start stop step items)
    (hs : Value.fits step = true) (hsum : array.length + step < 2 ^ 63) {k : Nat}
    (hk : k < items.length) : Value.fits (indexOf array start step k + step) = true := by
  obtain ⟨h0, hitem⟩ := h.item k hk
  rw [List.getElem?_eq_getElem hk] at hitem
  obtain ⟨hlt, -⟩ := List.getElem?_eq_some_iff.1 hitem.symm
  simp only [Value.fits, Bool.and_eq_true, decide_eq_true_eq] at hs ⊢
  omega

end

theorem invoke_slice (target : Value) (start stop step : Option Int) :
    Tracing.invoke "slice" (target :: Query.bounds start stop step) =
      slice target start stop step := by
  have hbound (bound : Option Int) : (Value.ofInt? bound).asInt? = bound := by
    cases bound <;> rfl
  show slice target (Value.ofInt? start).asInt? (Value.ofInt? stop).asInt?
    (Value.ofInt? step).asInt? = _
  rw [hbound, hbound, hbound]

end Slicing

namespace Procedure

open Slicing

/-- Whatever its bounds are, a slice compiles to one call of the host's function. -/
theorem call_tracing_slice {options : Options} (hn : isIdentifier options.name = true)
    (first : Nat) (start stop step : Option Int) :
    ∃ procedure, compile (.slice start stop step) options first = .ok procedure ∧
      ∀ root trace, procedure.call .tracing root trace = (slice root start stop step,
        trace ++ [⟨"slice", root :: Query.bounds start stop step⟩]) := by
  have hq : Query.ofNode first (.slice start stop step) = .ok (.slice start stop step) := by
    rw [Query.ofNode, Node.slice, Node.ofKind, Node.withValue, Query.check, if_neg (by decide)]
    cases start <;> cases stop <;> cases step <;> rfl
  refine ⟨ofQuery options (.slice start stop step), ?_, fun root trace => ?_⟩
  · rw [compile_eq_ofQuery _ hn, hq]
    rfl
  · rw [call_ofQuery, Query.eval, ← invoke_slice]
    rfl

/-- A compiled slice, called under the tracing host. On an array it gives the Python slice of the
array, unless the step is zero, which is refused; without a step the step is one. The walk through
the array that finds the items ends, looks at no index outside of the array, and never leaves the
range of 64 bits if the length of the array plus the step is below `2 ^ 63`. On all other values a
slice is null, also with a step of zero. -/
theorem call_slice {options : Options} (hn : isIdentifier options.name = true)
    (first : Nat) (start stop step : Option Int) :
    ∃ procedure, compile (.slice start stop step) options first = .ok procedure ∧
      ∀ trace : Trace,
        (∀ array : List Value, step ≠ some 0 → ∃ items,
          procedure.call .tracing (.array array) trace = (.ok (.array items),
            trace ++ [⟨"slice", .array array :: Query.bounds start stop step⟩]) ∧
          IsSlice array start stop (step.getD 1) items ∧
          Walk array (step.getD 1) (stopPlace array.length (step.getD 1) stop)
            (startPlace array.length (step.getD 1) start) items ∧
          (Value.fits (step.getD 1) = true → array.length + step.getD 1 < 2 ^ 63 →
            ∀ k < items.length,
              Value.fits (indexOf array start (step.getD 1) k + step.getD 1) = true)) ∧
        (∀ array : List Value, step = some 0 →
          procedure.call .tracing (.array array) trace =
            (.error (.invalidArgument "slice" "step cannot be 0"),
              trace ++ [⟨"slice", .array array :: Query.bounds start stop step⟩])) ∧
        ∀ root : Value, root.isSequence = false →
          procedure.call .tracing root trace = (.ok .null,
            trace ++ [⟨"slice", root :: Query.bounds start stop step⟩]) := by
  obtain ⟨procedure, hc, hcall⟩ := call_tracing_slice hn first start stop step
  refine ⟨procedure, hc, fun trace => ⟨fun array hs => ?_, fun array hs => ?_, fun root hr => ?_⟩⟩
  · have hstep : step.getD 1 ≠ 0 := by
      cases step with
      | none => decide
      | some n => exact fun h => hs (congrArg some h)
    have hslice := isSlice_items array start stop hstep
    have hwalk := walk_items array start stop hstep
    rw [first_eq (Int.natCast_nonneg _) hstep, last_eq (Int.natCast_nonneg _) hstep] at hwalk
    refine ⟨_, ?_, hslice, hwalk, fun hfits hsum k hk => hslice.fits_index hfits hsum hk⟩
    rw [hcall]
    simp only [slice, if_neg hstep]
  · rw [hcall, hs]
    rfl
  · rw [hcall]
    cases root with
    | array => cases hr
    | _ => rfl

/-- Bounds far beyond both ends of the array, backwards in steps of two, and a step of zero. -/
theorem call_slice_backwards :
    let array : List Value := [.integer 5, .integer 6, .integer 7, .integer 8]
    let start : Option Int := some 9223372036854775807
    let stop : Option Int := some (-9223372036854775808)
    ∃ backwards zero, compile (.slice start stop (some (-2))) {} = .ok backwards ∧
      compile (.slice start stop (some 0)) {} = .ok zero ∧
      (backwards.call .tracing (.array array) []).1 = .ok (.array [.integer 8, .integer 6]) ∧
      IsSlice array start stop (-2) [.integer 8, .integer 6] ∧
      Walk array (-2) (-1) 3 [.integer 8, .integer 6] ∧
      Value.fits (indexOf array start (-2) 1 + -2) = true ∧
      (zero.call .tracing (.array array) []).1 =
        .error (.invalidArgument "slice" "step cannot be 0") ∧
      (zero.call .tracing (.string "abc") []).1 = .ok .null := by
  intro array start stop
  have hn : isIdentifier ({} : Options).name = true := by decide +kernel
  obtain ⟨backwards, hb, hcall⟩ := call_slice hn 0 start stop (some (-2))
  obtain ⟨zero, hz, hzero⟩ := call_slice hn 0 start stop (some 0)
  obtain ⟨items, hitems, hslice, hwalk, hfits⟩ := (hcall []).1 array (by decide)
  have hgiven : (backwards.call .tracing (.array array) []).1 =
      .ok (.array [.integer 8, .integer 6]) := by
    rw [call_of_compile hb]
    cbv
  cases (congrArg Prod.fst hitems).symm.trans hgiven
  refine ⟨backwards, zero, hb, hz, hgiven, hslice, hwalk, ?_, ?_, ?_⟩
  · exact hfits (by decide) (by decide) 1 (by decide)
  · exact congrArg Prod.fst ((hzero []).2.1 array rfl)
  · exact congrArg Prod.fst ((hzero []).2.2 (.string "abc") rfl)

end Procedure

end PathQuery
