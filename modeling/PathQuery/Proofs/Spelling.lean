import Mathlib
import PathQuery.Json.Reader
import PathQuery.Proofs.Induction

/-!
# What a JSON text can spell

The type of JSON values has room for integers of any size, for floats that are not finite and for
any depth. The reader gives none of these: `Json.spelled_of_parse` says that the values it reads are
valid and nested only so deep.
-/

namespace PathQuery

/-- The JSON values that there are: a number is an integer from `-2 ^ 63` up to `2 ^ 64 - 1` or a
finite float. -/
inductive Json.Valid : Json → Prop
  | null : Valid .null
  | bool (b : Bool) : Valid (.bool b)
  | integer {n : Int} : -2 ^ 63 ≤ n → n < 2 ^ 64 → Valid (.integer n)
  | float {x : Binary64} : x.isFinite = true → Valid (.float x)
  | string (s : String) : Valid (.string s)
  | array {items : List Json} : (∀ item ∈ items, Valid item) → Valid (.array items)
  | object {members : List (String × Json)} : (∀ member ∈ members, Valid member.2) →
    Valid (.object members)

/-- The JSON value is valid, and its arrays and objects nest at most `depth` deep. -/
structure Json.Spelled (depth : Nat) (json : Json) : Prop where
  valid : json.Valid
  nesting_le : json.nesting ≤ depth

theorem Json.nestingItems_le_iff {items : List Json} {depth : Nat} :
    nestingItems items ≤ depth ↔ ∀ item ∈ items, item.nesting ≤ depth := by
  induction items with
  | nil => simp [nestingItems]
  | cons item items ih => rw [nestingItems, Nat.max_le, ih, List.forall_mem_cons]

theorem Json.nestingMembers_le_iff {members : List (String × Json)} {depth : Nat} :
    nestingMembers members ≤ depth ↔ ∀ member ∈ members, member.2.nesting ≤ depth := by
  induction members with
  | nil => simp [nestingMembers]
  | cons member members ih => rw [nestingMembers, Nat.max_le, ih, List.forall_mem_cons]

namespace Json.Reader

theorem spelled_of_float {negative : Bool} {digits depth : Nat} {exponent : Int} {json : Json}
    (h : float negative digits exponent = some json) : json.Spelled depth := by
  simp only [float] at h
  split at h
  · next hf =>
    cases h
    exact ⟨.float hf, Nat.zero_le _⟩
  · cases h

theorem spelled_of_integer {negative : Bool} {n depth : Nat} {json : Json}
    (h : integer negative n = some json) : json.Spelled depth := by
  unfold integer at h
  split at h
  · split at h
    · next hn =>
      simp only [Bool.and_eq_true, decide_eq_true_eq] at hn
      cases h
      exact ⟨.integer (by omega) (by omega), Nat.zero_le _⟩
    · exact spelled_of_float h
  · split at h
    · cases h
      exact ⟨.integer (by omega) (by omega), Nat.zero_le _⟩
    · exact spelled_of_float h

theorem spelled_of_unsigned {negative : Bool} {depth : Nat} {cs rest : List Char} {json : Json}
    (h : unsigned negative cs = some (json, rest)) : json.Spelled depth := by
  unfold unsigned at h
  obtain ⟨⟨ds, cs⟩, -, h⟩ := Option.bind_eq_some_iff.1 h
  obtain ⟨⟨fs, cs⟩, -, h⟩ := Option.bind_eq_some_iff.1 h
  obtain ⟨⟨e, cs⟩, -, h⟩ := Option.bind_eq_some_iff.1 h
  dsimp only at h
  split at h
  · obtain ⟨number, hn, h⟩ := Option.bind_eq_some_iff.1 h
    cases h
    exact spelled_of_integer hn
  · obtain ⟨number, hn, h⟩ := Option.bind_eq_some_iff.1 h
    cases h
    exact spelled_of_float hn

theorem spelled_of_number {depth : Nat} {cs rest : List Char} {json : Json}
    (h : number cs = some (json, rest)) : json.Spelled depth := by
  unfold number at h
  split at h
  · exact spelled_of_unsigned h
  · exact spelled_of_unsigned h

section

variable {α : Type} {item : List Char → Option (α × List Char)} {P : α → Prop} {close : Char}
  {bound : Nat} {cs rest : List Char} {as : List α}

theorem forall_of_items (hi : ∀ cs a rest, item cs = some (a, rest) → P a) {read : List α}
    (hr : ∀ a ∈ read, P a) (h : items item close bound read cs = some (as, rest)) :
    ∀ a ∈ as, P a := by
  induction bound generalizing read cs with
  | zero => cases h
  | succ bound ih =>
    rw [items] at h
    split at h
    · cases h
    · next a rest' ha =>
      have hread : ∀ b ∈ a :: read, P b := List.forall_mem_cons.2 ⟨hi _ _ _ ha, hr⟩
      split at h
      · cases h
      · split at h
        · exact ih hread h
        · split at h
          · cases h
            exact fun b hb => hread b (List.mem_reverse.1 hb)
          · cases h

theorem forall_of_enclosed (hi : ∀ cs a rest, item cs = some (a, rest) → P a)
    (h : enclosed item close bound cs = some (as, rest)) : ∀ a ∈ as, P a := by
  unfold enclosed at h
  split at h
  · cases h
  · split at h
    · cases h
      exact List.forall_mem_nil _
    · exact forall_of_items hi (List.forall_mem_nil _) h

end

theorem spelled_of_member {value : List Char → Option (Json × List Char)} {depth : Nat}
    (hv : ∀ cs json rest, value cs = some (json, rest) → json.Spelled depth) {cs rest : List Char}
    {entry : String × Json} (h : member value cs = some (entry, rest)) :
    entry.2.Spelled depth := by
  unfold member at h
  split at h
  · split at h
    · cases h
    · split at h
      · obtain ⟨⟨json, rest'⟩, hj, he⟩ := Option.map_eq_some_iff.1 h
        cases he
        exact hv _ _ _ hj
      · cases h
  · cases h

theorem forall_mem_ofPairs {P : Json → Prop} {pairs : List (String × Json)}
    (h : ∀ pair ∈ pairs, P pair.2) : ∀ entry ∈ Entries.ofPairs pairs, P entry.2 := by
  have hinsert (key : String) (json : Json) (hj : P json) (entries : Entries Json)
      (he : ∀ entry ∈ entries, P entry.2) :
      ∀ entry ∈ Entries.insert key json entries, P entry.2 := by
    induction entries with
    | nil => simpa [Entries.insert] using hj
    | cons first entries ih =>
      obtain ⟨hf, hr⟩ := List.forall_mem_cons.1 he
      rw [Entries.insert]
      split
      · exact List.forall_mem_cons.2 ⟨hj, hr⟩
      · exact List.forall_mem_cons.2 ⟨hf, ih hr⟩
  suffices hs : ∀ entries : Entries Json, (∀ entry ∈ entries, P entry.2) →
      ∀ entry ∈ pairs.foldl (fun entries pair => Entries.insert pair.1 pair.2 entries) entries,
        P entry.2 from hs [] (List.forall_mem_nil _)
  induction pairs with
  | nil => exact fun _ he => he
  | cons pair pairs ih =>
    obtain ⟨hp, hr⟩ := List.forall_mem_cons.1 h
    exact fun entries he => ih hr _ (hinsert _ _ hp entries he)

theorem spelled_of_value {bound depth : Nat} {cs rest : List Char} {json : Json}
    (h : value bound depth cs = some (json, rest)) : json.Spelled depth := by
  induction depth using Nat.strongRecOn generalizing cs json rest with
  | ind depth ih =>
    unfold value at h
    split at h
    · cases h
      exact ⟨.null, Nat.zero_le _⟩
    · cases h
      exact ⟨.bool true, Nat.zero_le _⟩
    · cases h
      exact ⟨.bool false, Nat.zero_le _⟩
    · obtain ⟨⟨s, _⟩, -, he⟩ := Option.map_eq_some_iff.1 h
      cases he
      exact ⟨.string s, Nat.zero_le _⟩
    · cases depth with
      | zero => cases h
      | succ depth =>
        obtain ⟨⟨items, _⟩, hi, he⟩ := Option.map_eq_some_iff.1 h
        cases he
        have hitems : ∀ item ∈ items, item.Spelled depth :=
          forall_of_enclosed (fun _ _ _ => ih depth (by omega)) hi
        exact ⟨.array fun item hm => (hitems item hm).valid, Nat.succ_le_succ
          (nestingItems_le_iff.2 fun item hm => (hitems item hm).nesting_le)⟩
    · cases depth with
      | zero => cases h
      | succ depth =>
        obtain ⟨⟨pairs, _⟩, hp, he⟩ := Option.map_eq_some_iff.1 h
        cases he
        have hmembers : ∀ member ∈ Entries.ofPairs pairs, member.2.Spelled depth := by
          refine forall_mem_ofPairs (forall_of_enclosed (fun _ _ _ => ?_) hp)
          exact spelled_of_member fun _ _ _ => ih depth (by omega)
        exact ⟨.object fun member hm => (hmembers member hm).valid, Nat.succ_le_succ
          (nestingMembers_le_iff.2 fun member hm => (hmembers member hm).nesting_le)⟩
    · exact spelled_of_number h

end Json.Reader

/-- Every JSON value that a text spells is valid and nested no deeper than allowed. -/
theorem Json.spelled_of_parse {text : String} {json : Json} (h : parse? text = some json) :
    json.Spelled Reader.maxNesting := by
  simp only [parse?] at h
  split at h
  · next hv =>
    split at h
    · cases h
      exact Reader.spelled_of_value hv
    · cases h
  · cases h

theorem Json.valid_of_parse {text : String} {json : Json} (h : parse? text = some json) :
    json.Valid :=
  (spelled_of_parse h).valid

end PathQuery
