import Mathlib
import PathQuery.Proofs.Names

/-!
# The first name that is free

A search for a name does not start at the stem, but where the last search for the same stem ended.
It finds the first free name of all nevertheless, because what it skips was issued before:

* `Symbols.Search`: the search, candidate by candidate. It always ends (`Symbols.search_firstFree`);
* `Symbols.Covered`: every candidate below the place where a search starts was issued, under
  whatever stem. Issuing a name keeps this (`Symbols.covered_allocate`);
* `Symbols.allocateAll_first_free`: so each of the names that are issued in a row is the first
  candidate of its stem that none of the names before it took.
-/

namespace PathQuery.Symbols

/-- The search that is at candidate `n` ends at candidate `m`: it goes on while the candidate was
issued. -/
inductive Search (issued : List String) (stem : String) : Nat → Nat → Prop
  | free {n : Nat} : candidate stem n ∉ issued → Search issued stem n n
  | taken {n m : Nat} : candidate stem n ∈ issued → Search issued stem (n + 1) m →
    Search issued stem n m

/-- Where the next search for a stem starts. -/
def start (symbols : Symbols) (stem : String) : Nat := (symbols.tried.lookup stem).getD 0

/-- The name is the first candidate of its stem that is not among those issued earlier. -/
def FirstFree (earlier : List String) (stem name : String) : Prop :=
  ∃ n, name = candidate stem n ∧ candidate stem n ∉ earlier ∧
    ∀ m < n, candidate stem m ∈ earlier

/-- What the searches to come will skip was issued. -/
def Covered (symbols : Symbols) : Prop :=
  ∀ stem, ∀ n < symbols.start stem, candidate stem n ∈ symbols.issued

variable {symbols : Symbols} {issued : List String} {stem : String}

/-! ## One search -/

theorem search_of_free {n m : Nat} (hle : n ≤ m) (hfree : candidate stem m ∉ issued)
    (htaken : ∀ k, n ≤ k → k < m → candidate stem k ∈ issued) : Search issued stem n m := by
  obtain ⟨d, rfl⟩ := Nat.exists_eq_add_of_le hle
  induction d generalizing n with
  | zero => exact .free hfree
  | succ d ih =>
    rw [← Nat.add_assoc, Nat.add_right_comm] at hfree htaken ⊢
    refine .taken (htaken n (Nat.le_refl n) (by omega)) (ih (by omega) hfree fun k hk => ?_)
    exact htaken k (by omega)

/-- A search ends, wherever it starts. -/
theorem search_firstFree (issued : List String) (stem : String) (start : Nat) :
    Search issued stem start (firstFree issued stem start) := by
  obtain ⟨hfree, hle, htaken⟩ := firstFree_spec issued stem start
  exact search_of_free hle hfree htaken

/-- A search ends after no more candidates than there are issued names: those that it skips are
issued, and they differ from one another. -/
theorem firstFree_le (issued : List String) (stem : String) (start : Nat) :
    firstFree issued stem start ≤ start + issued.length := by
  obtain ⟨-, hle, htaken⟩ := firstFree_spec issued stem start
  have hsub : (List.range' start (firstFree issued stem start - start)).map (candidate stem) ⊆
      issued := by
    intro name hname
    obtain ⟨n, hn, rfl⟩ := List.mem_map.1 hname
    obtain ⟨hge, hlt⟩ := List.mem_range'_1.1 hn
    exact htaken n hge (by omega)
  have hlen := (List.nodup_range' 1).map (candidate_injective stem) |>.length_le_of_subset hsub
  rw [List.length_map, List.length_range'] at hlen
  omega

theorem allocate_eq (symbols : Symbols) (stem : String) :
    symbols.allocate stem =
      (candidate stem (firstFree symbols.issued stem (symbols.start stem)),
        ⟨(stem, firstFree symbols.issued stem (symbols.start stem) + 1) :: symbols.tried,
          candidate stem (firstFree symbols.issued stem (symbols.start stem)) :: symbols.issued⟩) :=
  rfl

/-! ## One name after the other -/

theorem covered_empty : ({} : Symbols).Covered := by
  intro stem n hn
  cases hn

/-- The candidates before the one that a search ends at were all issued, also those that it skips
without looking. -/
theorem Covered.candidate_mem (h : symbols.Covered) {n : Nat}
    (hn : n < firstFree symbols.issued stem (symbols.start stem)) :
    candidate stem n ∈ symbols.issued := by
  rcases Nat.lt_or_ge n (symbols.start stem) with hlt | hge
  · exact h stem n hlt
  · exact (firstFree_spec symbols.issued stem (symbols.start stem)).2.2 n hge hn

theorem start_allocate (symbols : Symbols) (stem other : String) :
    (symbols.allocate stem).2.start other =
      if other = stem then firstFree symbols.issued stem (symbols.start stem) + 1
      else symbols.start other := by
  rw [start, allocate_eq, List.lookup_cons]
  split
  · next h => rw [if_pos (eq_of_beq h), Option.getD_some]
  · next h => rw [if_neg (ne_of_beq_false h), start]

/-- The name that is issued is the first free one of all. -/
theorem firstFree_allocate (h : symbols.Covered) (stem : String) :
    FirstFree symbols.issued stem (symbols.allocate stem).1 :=
  ⟨_, rfl, symbols.allocate_notMem stem, fun _ => h.candidate_mem⟩

/-- Issuing a name leaves nothing uncovered: the next search for its stem starts behind it. -/
theorem covered_allocate (h : symbols.Covered) (stem : String) :
    (symbols.allocate stem).2.Covered := by
  intro other n hn
  rw [issued_allocate, List.mem_cons]
  rw [start_allocate] at hn
  split at hn
  · next heq =>
    subst heq
    rcases Nat.lt_or_eq_of_le (Nat.le_of_lt_succ hn) with hlt | rfl
    · exact .inr (h.candidate_mem hlt)
    · exact .inl rfl
  · exact .inr (h other n hn)

theorem FirstFree.of_perm {earlier issued : List String} {name : String} (hp : earlier.Perm issued)
    (h : FirstFree issued stem name) : FirstFree earlier stem name := by
  obtain ⟨n, hn, hfree, htaken⟩ := h
  exact ⟨n, hn, fun hm => hfree (hp.subset hm), fun m hm => hp.symm.subset (htaken m hm)⟩

/-- Of names that are issued in a row, each is the first that neither the names before it nor those
issued at the start took. -/
theorem firstFree_allocateAll (h : symbols.Covered) {stems : List String} {i : Nat}
    (hi : stems[i]? = some stem) :
    ∃ name, (symbols.allocateAll stems)[i]? = some name ∧
      FirstFree ((symbols.allocateAll stems).take i ++ symbols.issued) stem name := by
  induction stems generalizing symbols i with
  | nil => cases hi
  | cons first stems ih =>
    rw [allocateAll_cons]
    cases i with
    | zero =>
      cases hi
      exact ⟨_, rfl, firstFree_allocate h stem⟩
    | succ i =>
      obtain ⟨name, hname, hfirst⟩ := ih (covered_allocate h first) hi
      refine ⟨name, hname, hfirst.of_perm ?_⟩
      rw [issued_allocate, List.take_succ_cons, List.cons_append]
      exact List.perm_middle.symm

/-- Every search for a name ends, after one candidate more at most than names were issued. Of the
names that are issued in a row, each is the first among its stem, the stem with 1, the stem with 2
and so on that no earlier name of the row took, so no two of them are the same. -/
theorem allocateAll_first_free :
    (∀ (symbols : Symbols) (stem : String), ∃ n,
      Search symbols.issued stem (symbols.start stem) n ∧
      n ≤ symbols.start stem + symbols.issued.length ∧
      symbols.allocate stem = (candidate stem n,
        ⟨(stem, n + 1) :: symbols.tried, candidate stem n :: symbols.issued⟩)) ∧
    ∀ stems : List String, (({} : Symbols).allocateAll stems).length = stems.length ∧
      (({} : Symbols).allocateAll stems).Nodup ∧
      ∀ (i : Nat) (stem : String), stems[i]? = some stem →
        ∃ name, (({} : Symbols).allocateAll stems)[i]? = some name ∧
          FirstFree ((({} : Symbols).allocateAll stems).take i) stem name := by
  refine ⟨fun symbols stem => ⟨_, search_firstFree _ _ _, firstFree_le _ _ _, rfl⟩, fun stems =>
    ⟨length_allocateAll _ _, nodup_allocateAll _ _, fun i stem hi => ?_⟩⟩
  obtain ⟨name, hname, hfirst⟩ := firstFree_allocateAll covered_empty hi
  rw [show ({} : Symbols).issued = [] from rfl, List.append_nil] at hfirst
  exact ⟨name, hname, hfirst⟩

/-- Stems that are the beginnings of others, that end in a digit, and that are empty. -/
theorem allocateAll_first_free_overlapping :
    let stems := ["x", "x", "x1", "x1", "x", "", "", "1"]
    ({} : Symbols).allocateAll stems = ["x", "x1", "x11", "x12", "x2", "", "1", "11"] ∧
      stems[7]? = some "1" ∧ ∃ name,
        (({} : Symbols).allocateAll stems)[7]? = some name ∧
          FirstFree ((({} : Symbols).allocateAll stems).take 7) "1" name := by
  intro stems
  exact ⟨by decide +kernel, rfl, (allocateAll_first_free.2 stems).2.2 7 "1" rfl⟩

end PathQuery.Symbols
