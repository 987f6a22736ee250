import Mathlib
import PathQuery.Proofs.Rounding

/-!
# Values to JSON and back

Both ways of conversion lose something, and nothing else than this:

* `Value.ofJson_toJson`: a value comes back from JSON with null for what JSON has no form for;
* `Value.toJson_ofJson`: a JSON value comes back with a float for every integer that does not fit in
  64 signed bits, which is the double nearest to it.

`Value.json_round_trips` puts the two together.
-/

namespace PathQuery

namespace Value

/-! ## Integers in values -/

theorem fits_iff {n : Int} : fits n = true ↔ -2 ^ 63 ≤ n ∧ n < 2 ^ 63 := by
  simp only [fits, Bool.and_eq_true, decide_eq_true_eq]
  norm_num

/-- The integer stands somewhere in the value, at any depth of arrays and objects. -/
inductive HasInteger (n : Int) : Value → Prop
  | integer : HasInteger n (.integer n)
  | item {items : List Value} {item : Value} : item ∈ items → HasInteger n item →
    HasInteger n (.array items)
  | entry {entries : List (String × Value)} {entry : String × Value} : entry ∈ entries →
    HasInteger n entry.2 → HasInteger n (.object entries)

/-- Every integer in the value is as `p` says. -/
def Integers (p : Int → Prop) (value : Value) : Prop := ∀ n, value.HasInteger n → p n

section

variable {p : Int → Prop}

theorem integers_integer_iff {n : Int} : (integer n).Integers p ↔ p n := by
  constructor
  · exact fun h => h n .integer
  · rintro h m ⟨⟩
    exact h

theorem integers_float (x : Binary64) : (float x).Integers p := by
  rintro n ⟨⟩

theorem integers_expref (origin : Origin) (node : Node) : (expref origin node).Integers p := by
  rintro n ⟨⟩

theorem integers_array_iff {items : List Value} :
    (array items).Integers p ↔ ∀ item ∈ items, item.Integers p := by
  constructor
  · exact fun h item hi n hn => h n (.item hi hn)
  · intro h n hn
    cases hn with
    | item hi hn => exact h _ hi n hn

theorem integers_object_iff {entries : List (String × Value)} :
    (object entries).Integers p ↔ ∀ entry ∈ entries, entry.2.Integers p := by
  constructor
  · exact fun h entry he n hn => h n (.entry he hn)
  · intro h n hn
    cases hn with
    | entry he hn => exact h _ he n hn

end

/-! ## What conversion loses -/

mutual

/-- The value with null for everything that JSON has no form for: expression references, and floats
that are not finite. -/
def expressible : Value → Value
  | .null => .null
  | .boolean b => .boolean b
  | .integer n => .integer n
  | .float x => if x.isFinite then .float x else .null
  | .string s => .string s
  | .array items => .array (expressibleItems items)
  | .object entries => .object (expressibleEntries entries)
  | .expref _ _ => .null

@[inherit_doc expressible]
def expressibleItems : List Value → List Value
  | [] => []
  | item :: items => item.expressible :: expressibleItems items

@[inherit_doc expressible]
def expressibleEntries : List (String × Value) → List (String × Value)
  | [] => []
  | (key, item) :: entries => (key, item.expressible) :: expressibleEntries entries

end

theorem expressibleItems_eq_map (items : List Value) :
    expressibleItems items = items.map expressible := by
  induction items with
  | nil => rfl
  | cons item items ih => rw [expressibleItems, ih, List.map_cons]

theorem expressibleEntries_eq_map (entries : List (String × Value)) :
    expressibleEntries entries = entries.map fun entry => (entry.1, entry.2.expressible) := by
  induction entries with
  | nil => rfl
  | cons entry entries ih => rw [expressibleEntries, ih, List.map_cons]

end Value

namespace Json

mutual

/-- The JSON value with a float for every integer above `2 ^ 63 - 1`: the double nearest to it. -/
def rounded : Json → Json
  | .null => .null
  | .bool b => .bool b
  | .integer n => if 2 ^ 63 - 1 < n then .float (Binary64.ofInt n) else .integer n
  | .float x => .float x
  | .string s => .string s
  | .array items => .array (roundedItems items)
  | .object members => .object (roundedMembers members)

@[inherit_doc rounded]
def roundedItems : List Json → List Json
  | [] => []
  | item :: items => item.rounded :: roundedItems items

@[inherit_doc rounded]
def roundedMembers : List (String × Json) → List (String × Json)
  | [] => []
  | (key, item) :: members => (key, item.rounded) :: roundedMembers members

end

theorem roundedItems_eq_map (items : List Json) : roundedItems items = items.map rounded := by
  induction items with
  | nil => rfl
  | cons item items ih => rw [roundedItems, ih, List.map_cons]

theorem roundedMembers_eq_map (members : List (String × Json)) :
    roundedMembers members = members.map fun member => (member.1, member.2.rounded) := by
  induction members with
  | nil => rfl
  | cons member members ih => rw [roundedMembers, ih, List.map_cons]

end Json

namespace Value

/-! ## There and back -/

/-- A value that went through JSON has lost what JSON has no form for. -/
theorem ofJson_toJson {value : Value} (h : value.Integers fun n => fits n) :
    ofJson value.toJson = value.expressible := by
  induction value with
  | null | boolean b | string s | expref origin node => rfl
  | integer n => rw [toJson, ofJson, if_pos (integers_integer_iff.1 h), expressible]
  | float x =>
    rw [toJson, expressible]
    split <;> rfl
  | array items ih =>
    rw [integers_array_iff] at h
    rw [toJson, ofJson, expressible, toJsonItems_eq_map, ofJsonItems_eq_map,
      expressibleItems_eq_map, List.map_map]
    exact congrArg array (List.map_congr_left fun item hi => ih item hi (h item hi))
  | object entries ih =>
    rw [integers_object_iff] at h
    rw [toJson, ofJson, expressible, toJsonEntries_eq_map, ofJsonMembers_eq_map,
      expressibleEntries_eq_map, List.map_map]
    exact congrArg object
      (List.map_congr_left fun entry he => Prod.ext rfl (ih entry he (h entry he)))

/-- A JSON value that went through a value has its greatest integers rounded. -/
theorem toJson_ofJson {json : Json} (h : json.Valid) : (ofJson json).toJson = json.rounded := by
  induction h with
  | null | bool b | string s => rfl
  | float hx => rw [ofJson, toJson, if_pos hx, Json.rounded]
  | @integer n hl hu =>
    rw [ofJson, Json.rounded]
    by_cases hn : 2 ^ 63 - 1 < n
    · have hf : ¬fits n = true := by
        rw [fits_iff]
        omega
      rw [if_neg hf, if_pos hn, toJson, if_pos (Binary64.isFinite_ofInt (by omega))]
    · have hf : fits n = true := fits_iff.2 ⟨hl, by omega⟩
      rw [if_pos hf, if_neg hn, toJson]
  | @array items _ ih =>
    rw [ofJson, toJson, Json.rounded, ofJsonItems_eq_map, toJsonItems_eq_map,
      Json.roundedItems_eq_map, List.map_map]
    exact congrArg Json.array (List.map_congr_left ih)
  | @object members _ ih =>
    rw [ofJson, toJson, Json.rounded, ofJsonMembers_eq_map, toJsonEntries_eq_map,
      Json.roundedMembers_eq_map, List.map_map]
    exact congrArg Json.object
      (List.map_congr_left fun member hm => Prod.ext rfl (ih member hm))

/-- A value whose integers are held in 64 bits comes back from JSON as it was, but for expression
references and floats that are not finite, which have become null. A JSON value, as a text can spell
it, comes back as it was, but for integers above `2 ^ 63 - 1`, which have become the nearest double.
-/
theorem json_round_trips :
    (∀ value : Value, value.Integers (fun n => fits n) →
      ofJson value.toJson = value.expressible) ∧
    (∀ json : Json, json.Valid → (ofJson json).toJson = json.rounded) ∧
    (∀ n : Int, 2 ^ 63 - 1 < n → n < 2 ^ 64 → (Binary64.ofInt n).IsNearest n) ∧
    ∀ text json, Json.parse? text = some json → json.Valid := by
  refine ⟨fun value => ofJson_toJson, fun json => toJson_ofJson, fun n hl hu => ?_,
    fun text json => Json.valid_of_parse⟩
  exact Binary64.isNearest_ofInt (by omega)

/-- An object with a reference, with something that is not a number, with a minus zero and with a
float beside the integer of the same value; and an array with integers on both sides of the bound.
-/
theorem json_round_trips_edges :
    let nan := Binary64.ofBits 0x7ff8000000000000
    let minusZero := Binary64.ofBits 0x8000000000000000
    let two := Binary64.ofBits 0x4000000000000000
    let value : Value := .object [("b", .array [.expref (.given 0) .current, .float nan]),
      ("a", .array [.float minusZero, .float two, .integer 2])]
    let json : Json := .array [.integer 0x7fffffffffffffff, .integer 0xffffffffffffffff, .float two]
    (value.Integers (fun n => fits n) ∧ ofJson value.toJson = .object [("b", .array [.null, .null]),
      ("a", .array [.float minusZero, .float two, .integer 2])]) ∧
    (json.Valid ∧ (ofJson json).toJson = .array [.integer 0x7fffffffffffffff,
      .float (Binary64.ofBits 0x43f0000000000000), .float two]) ∧
    (Binary64.ofInt 0xffffffffffffffff).IsNearest (0xffffffffffffffff : ℤ) ∧
    Json.parse? "[18446744073709551615]" = some (.array [.integer 0xffffffffffffffff]) ∧
    (Json.array [.integer 0xffffffffffffffff]).Valid := by
  intro nan minusZero two value json
  obtain ⟨hvalue, hjson, hnearest, hparse⟩ := json_round_trips
  have hv : value.Integers fun n => fits n := by
    simp [value, integers_object_iff, integers_array_iff, integers_integer_iff, integers_float,
      integers_expref, fits_iff]
  have hj : json.Valid := by
    refine .array (List.forall_mem_cons.2 ⟨.integer ?_ ?_, List.forall_mem_cons.2
      ⟨.integer ?_ ?_, List.forall_mem_singleton.2 (.float rfl)⟩⟩) <;> norm_num
  have hread : Json.parse? "[18446744073709551615]" =
      some (.array [.integer 0xffffffffffffffff]) := by cbv
  refine ⟨⟨hv, (hvalue value hv).trans ?_⟩, ⟨hj, (hjson json hj).trans ?_⟩,
    hnearest _ (by norm_num) (by norm_num), hread, hparse _ _ hread⟩
  · rfl
  · rfl

end Value

end PathQuery
