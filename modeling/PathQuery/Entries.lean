/-!
# Ordered entries

The members of an object: keys with their values, in the order in which the keys first appeared.
Lookup is `List.lookup`.
-/

namespace PathQuery

/-- Keys with their values, in order. -/
abbrev Entries (α : Type) := List (String × α)

namespace Entries

variable {α : Type}

/-- Gives `key` the value `a`: a key that is present keeps its place, a new one goes to the end.
-/
def insert (key : String) (a : α) : Entries α → Entries α
  | [] => [(key, a)]
  | (k, b) :: rest => if k = key then (k, a) :: rest else (k, b) :: insert key a rest

/-- The entries that inserting the pairs in order leaves: of a repeated key the first place and
the last value. -/
def ofPairs (pairs : List (String × α)) : Entries α :=
  pairs.foldl (fun entries pair => insert pair.1 pair.2 entries) []

def keys (entries : Entries α) : List String := entries.map Prod.fst

def values (entries : Entries α) : List α := entries.map Prod.snd

theorem lookup_insert_self (key : String) (a : α) (entries : Entries α) :
    (insert key a entries).lookup key = some a := by
  induction entries with
  | nil => simp [insert]
  | cons entry rest ih =>
    obtain ⟨first, b⟩ := entry
    rw [insert]
    split
    · next h => simp [h]
    · next h => simp only [List.lookup_cons, ih, beq_eq_false_iff_ne.2 (Ne.symm h)]

theorem lookup_insert_of_ne {key k : String} (h : k ≠ key) (a : α) (entries : Entries α) :
    (insert key a entries).lookup k = entries.lookup k := by
  induction entries with
  | nil => simp [insert, List.lookup_cons, beq_eq_false_iff_ne.2 h]
  | cons entry rest ih =>
    obtain ⟨first, b⟩ := entry
    rw [insert]
    split
    · next he => simp [List.lookup_cons, he, beq_eq_false_iff_ne.2 h]
    · simp [List.lookup_cons, ih]

/-- A key that is present keeps its place, a new one goes to the end. -/
theorem keys_insert (key : String) (a : α) (entries : Entries α) :
    keys (insert key a entries) =
      if key ∈ keys entries then keys entries else keys entries ++ [key] := by
  induction entries with
  | nil => simp [insert, keys]
  | cons entry rest ih =>
    simp only [keys] at ih
    rw [insert]
    split
    · next h => simp [keys, h]
    · next h => grind [keys]

theorem nodup_keys_insert {key : String} {a : α} {entries : Entries α} (h : (keys entries).Nodup) :
    (keys (insert key a entries)).Nodup := by
  rw [keys_insert]
  split
  · exact h
  · next hk => exact List.nodup_append.2 ⟨h, by simp, by grind⟩

/-- However often a key is inserted, it stands in the entries once. -/
theorem nodup_keys_ofPairs (pairs : List (String × α)) : (keys (ofPairs pairs)).Nodup := by
  suffices h : ∀ entries : Entries α, (keys entries).Nodup →
      (keys (pairs.foldl (fun entries pair => insert pair.1 pair.2 entries) entries)).Nodup from
    h [] (by simp [keys])
  induction pairs with
  | nil => exact fun _ h => h
  | cons pair pairs ih => exact fun _ h => ih _ (nodup_keys_insert h)

end Entries

end PathQuery
