import Mathlib
import PathQuery.Proofs.Decimals
import PathQuery.Proofs.Hygiene

/-!
# The names of slots

* `Symbols.firstFree_spec`: the search for a name ends at the first candidate that is free;
* `Symbols.nodup_allocateAll`: so no name is issued twice;
* `Procedure.legible_slots`: the slots of a compiled procedure have different names, none of which
  can be taken for a number or for one of the words of literals.
-/

namespace PathQuery

namespace Symbols

open Json.Reader (ofDigits_toDigits)

/-- What a candidate has behind its stem. -/
def suffix : Nat → List Char
  | 0 => []
  | n + 1 => Nat.toDigits 10 (n + 1)

theorem toList_candidate (stem : String) (n : Nat) :
    (candidate stem n).toList = stem.toList ++ suffix n := by
  cases n with
  | zero => rw [candidate, suffix, List.append_nil]
  | succ n =>
    rw [candidate, suffix, String.toList_append, Nat.toString_eq_repr, Nat.toList_repr]

theorem isDigit_of_mem_suffix {n : Nat} {c : Char} (h : c ∈ suffix n) : c.isDigit = true := by
  cases n with
  | zero => cases h
  | succ n => exact Numeral.toDigits_digits (n + 1) c h

theorem ofDigits_suffix (n : Nat) : Json.Reader.ofDigits (suffix n) = n := by
  cases n with
  | zero => rfl
  | succ n => exact ofDigits_toDigits (n + 1)

theorem candidate_injective (stem : String) : Function.Injective (candidate stem) := by
  intro n m h
  rw [← String.toList_inj, toList_candidate, toList_candidate, List.append_cancel_left_eq] at h
  rw [← ofDigits_suffix n, h, ofDigits_suffix]

/-- The search stops at the first candidate from `start` on that was not issued. There is one, since
the candidates differ and there are more of them than issued names. -/
theorem firstFree_spec (issued : List String) (stem : String) (start : Nat) :
    candidate stem (firstFree issued stem start) ∉ issued ∧
      start ≤ firstFree issued stem start ∧
      ∀ n, start ≤ n → n < firstFree issued stem start → candidate stem n ∈ issued := by
  rw [firstFree]
  cases hfind : (List.range' start (issued.length + 1)).find?
      fun n => !issued.contains (candidate stem n) with
  | none =>
    rw [List.find?_range'_eq_none] at hfind
    have hsub : (List.range' start (issued.length + 1)).map (candidate stem) ⊆ issued := by
      intro name hname
      obtain ⟨n, hn, rfl⟩ := List.mem_map.1 hname
      obtain ⟨hle, hlt⟩ := List.mem_range'_1.1 hn
      simpa using hfind n hle hlt
    have hlen := (List.nodup_range' 1).map (candidate_injective stem) |>.length_le_of_subset hsub
    rw [List.length_map, List.length_range'] at hlen
    omega
  | some n =>
    obtain ⟨hfree, hmem, hbefore⟩ := List.find?_range'_eq_some.1 hfind
    refine ⟨by simpa using hfree, (List.mem_range'_1.1 hmem).1, fun k hle hlt => ?_⟩
    simpa using hbefore k hle hlt

theorem allocate_notMem (symbols : Symbols) (stem : String) :
    (symbols.allocate stem).1 ∉ symbols.issued :=
  (firstFree_spec _ _ _).1

theorem issued_allocate (symbols : Symbols) (stem : String) :
    (symbols.allocate stem).2.issued = (symbols.allocate stem).1 :: symbols.issued :=
  rfl

theorem allocateAll_cons (symbols : Symbols) (stem : String) (stems : List String) :
    symbols.allocateAll (stem :: stems) =
      (symbols.allocate stem).1 :: (symbols.allocate stem).2.allocateAll stems :=
  rfl

/-- Names that are issued in a row differ from all that were issued before. -/
theorem notMem_issued_of_mem_allocateAll {symbols : Symbols} {stems : List String} {name : String}
    (h : name ∈ symbols.allocateAll stems) : name ∉ symbols.issued := by
  induction stems generalizing symbols with
  | nil => cases h
  | cons stem stems ih =>
    rw [allocateAll_cons] at h
    rcases List.mem_cons.1 h with rfl | h
    · exact symbols.allocate_notMem stem
    · have hrest := ih h
      rw [issued_allocate, List.mem_cons, not_or] at hrest
      exact hrest.2

/-- No name is issued twice. -/
theorem nodup_allocateAll (symbols : Symbols) (stems : List String) :
    (symbols.allocateAll stems).Nodup := by
  induction stems generalizing symbols with
  | nil => exact List.nodup_nil
  | cons stem stems ih =>
    rw [allocateAll_cons, List.nodup_cons]
    refine ⟨fun hmem => ?_, ih _⟩
    have hfresh := notMem_issued_of_mem_allocateAll hmem
    rw [issued_allocate, List.mem_cons, not_or] at hfresh
    exact hfresh.1 rfl

theorem exists_candidate_of_mem_allocateAll {symbols : Symbols} {stems : List String}
    {name : String} (h : name ∈ symbols.allocateAll stems) :
    ∃ stem ∈ stems, ∃ n, name = candidate stem n := by
  induction stems generalizing symbols with
  | nil => cases h
  | cons stem stems ih =>
    rw [allocateAll_cons] at h
    rcases List.mem_cons.1 h with rfl | h
    · exact ⟨stem, List.mem_cons_self, _, rfl⟩
    · obtain ⟨other, hmem, n, hn⟩ := ih h
      exact ⟨other, List.mem_cons_of_mem _ hmem, n, hn⟩

end Symbols

/-! ## Stems -/

namespace Query

/-- The stems of all names that a procedure may use. -/
def stems : List String :=
  ["value", "current", "index", "saved", "flattened", "element", "base", "collected",
    "saved_current", "left", "right", "result", "base_current", "selected", "args"]

theorem temporariesAll_subset {queries : List Query} {names : List String}
    (h : ∀ query ∈ queries, query.temporaries ⊆ names) : temporariesAll queries ⊆ names := by
  induction queries with
  | nil => exact List.nil_subset _
  | cons query queries ih =>
    obtain ⟨hq, hqs⟩ := List.forall_mem_cons.1 h
    exact List.append_subset.2 ⟨hq, ih hqs⟩

theorem temporariesEntries_subset {entries : List (String × Query)} {names : List String}
    (h : ∀ entry ∈ entries, entry.2.temporaries ⊆ names) : temporariesEntries entries ⊆ names := by
  induction entries with
  | nil => exact List.nil_subset _
  | cons entry entries ih =>
    obtain ⟨hq, hqs⟩ := List.forall_mem_cons.1 h
    exact List.append_subset.2 ⟨hq, ih hqs⟩

theorem temporaries_subset_stems (query : Query) : query.temporaries ⊆ stems := by
  induction query with
  | literal _ | field _ | current | reference _ _ => exact List.nil_subset _
  | index i =>
    rw [temporaries]
    split
    · decide
    · exact List.nil_subset _
  | subexpression left right ihl ihr | pipe left right ihl ihr =>
    exact List.append_subset.2 ⟨ihl, ihr⟩
  | or left right ihl ihr | and left right ihl ihr =>
    exact List.cons_subset.2 ⟨by decide, List.append_subset.2 ⟨ihl, ihr⟩⟩
  | not query ih => exact ih
  | flatten query ih => exact List.append_subset.2 ⟨ih, by decide⟩
  | projection source left right ihl ihr =>
    exact List.append_subset.2 ⟨List.append_subset.2 ⟨ihl, by decide⟩, ihr⟩
  | comparator op left right ihl ihr =>
    exact List.append_subset.2 ⟨List.append_subset.2 ⟨by decide, ihl⟩, ihr⟩
  | list items ih | call name items ih =>
    exact List.append_subset.2 ⟨by decide, temporariesAll_subset ih⟩
  | hash entries ih => exact List.append_subset.2 ⟨by decide, temporariesEntries_subset ih⟩
  | slice _ _ _ => rw [temporaries]; decide

end Query

/-! ## Legible names -/

/-- The words of literals that are no numbers. -/
def scalarWords : List (List Char) := ["null".toList, "true".toList, "false".toList]

/-- A word that neither starts like a number nor is another literal. -/
structure IsName (chars : List Char) : Prop where
  ne_nil : chars ≠ []
  head : ∀ c ∈ chars.head?, c.isDigit = false ∧ c ≠ '-'
  isWord : ∀ c ∈ chars, isWord c = true
  notMem_scalarWords : chars ∉ scalarWords

theorem isName_candidate {stem : String} (h : stem ∈ Query.stems) (n : Nat) :
    IsName (Symbols.candidate stem n).toList := by
  have hstem : stem.toList ≠ [] ∧ (∀ c ∈ stem.toList.head?, c.isDigit = false ∧ c ≠ '-') ∧
      (∀ c ∈ stem.toList, isWord c = true ∧ c.isDigit = false) ∧ stem.toList ∉ scalarWords := by
    revert stem
    simp [Query.stems, scalarWords, isWord]
  obtain ⟨hne, hhead, hchars, hword⟩ := hstem
  rw [Symbols.toList_candidate]
  refine ⟨by simp [hne], ?_,
    List.forall_mem_append.2 ⟨fun c hc => (hchars c hc).1, fun c hc => ?_⟩, ?_⟩
  · rwa [List.head?_append_of_ne_nil _ hne]
  · exact Numeral.isWord_of_isDigit (Symbols.isDigit_of_mem_suffix hc)
  · -- The words of literals have no digits, so one of them would have to be the stem itself.
    intro hmem
    have hnone : ∀ word ∈ scalarWords, ∀ c ∈ word, c.isDigit = false := by
      simp [scalarWords]
    have hsuffix : Symbols.suffix n = [] := by
      refine List.eq_nil_iff_forall_not_mem.2 fun c hc => ?_
      have hc' := hnone _ hmem c (List.mem_append_right _ hc)
      rw [Symbols.isDigit_of_mem_suffix hc] at hc'
      cases hc'
    rw [hsuffix, List.append_nil] at hmem
    exact hword hmem

namespace SlotNames

/-- The slots have different names that can be told from literals. -/
structure Legible (slots : SlotNames) : Prop where
  nodup : slots.Nodup
  isName : ∀ name ∈ slots, IsName name.toList
  value : slots.name .value = "value"

namespace Legible

variable {slots : SlotNames} {a b : Slot}

theorem isName_name (h : slots.Legible) (ha : a.index < slots.length) :
    IsName (slots.name a).toList := by
  rw [name, List.getD_eq_getElem _ _ ha]
  exact h.isName _ (List.getElem_mem ha)

/-- A slot is known by its name. -/
theorem name_inj (h : slots.Legible) (ha : a.index < slots.length) (hb : b.index < slots.length)
    (hname : slots.name a = slots.name b) : a = b := by
  rw [name, name, List.getD_eq_getElem _ _ ha, List.getD_eq_getElem _ _ hb,
    h.nodup.getElem_inj_iff] at hname
  exact Slot.ext hname

end Legible

end SlotNames

/-- The names in a compiled procedure are legible. -/
theorem Procedure.legible_slots (options : Options) (query : Query) :
    (ofQuery options query).slots.Legible where
  nodup := Symbols.nodup_allocateAll _ _
  isName := by
    intro name hname
    obtain ⟨stem, hstem, n, rfl⟩ := Symbols.exists_candidate_of_mem_allocateAll hname
    refine isName_candidate ?_ n
    rcases List.mem_cons.1 hstem with rfl | hstem
    · decide
    · rcases List.mem_cons.1 hstem with rfl | hstem
      · decide
      · exact query.temporaries_subset_stems hstem
  value := rfl

end PathQuery
