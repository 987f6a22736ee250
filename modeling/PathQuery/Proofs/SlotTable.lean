import Mathlib
import PathQuery.Proofs.Constructs
import PathQuery.Proofs.Defects
import PathQuery.Proofs.FreshNames

/-!
# The table of slots

The slots of a compiled procedure are named in the order in which they are set aside:

* `Node.slotStems`: the stems of the slots that a syntax tree calls for, in this order, and
  `Place.ownSlots`: how many of them each place of the tree calls for;
* `Symbols.Numbered`: the names that were issued for a stem are the stem itself, the stem with 1 and
  so on up to their number, and no other stem has any of these names. Issuing a name keeps this as
  long as no stem has a digit (`Symbols.Numbered.allocate`);
* `Procedure.slot_table`: so the names of the slots are known from the stems alone.
-/

namespace PathQuery

/-! ## Stems of syntax trees -/

namespace Node

/-- The stems of the slots that a node itself calls for. -/
def ownStems (node : Node) : List String :=
  match node.kind with
  | .index =>
    match node.value with
    | some (.integer i) => if i < 0 then ["index"] else []
    | _ => []
  | .or | .and => ["saved"]
  | .slice => ["args"]
  | .flatten => ["flattened", "element"]
  | .projection => ["base", "collected", "element"]
  | .multiSelectList | .multiSelectHash => ["base", "base_current", "selected"]
  | .functionCall => ["base", "base_current", "args"]
  | .comparator => ["saved", "saved_current", "left", "right", "result"]
  | _ => []

mutual

/-- The stems of the slots that a node calls for, in the order in which they are set aside: those of
a node before those of its operands, but behind them for a flatten, and between them for a
projection. -/
def slotStems : Node → List String
  | ⟨kind, value, children, source⟩ =>
    let own := ownStems ⟨kind, value, children, source⟩
    match kind with
    | .literal | .field | .index | .slice | .current | .expressionReference => own
    | .flatten => slotStemsAll children ++ own
    | .projection =>
      match children with
      | [] => own
      | left :: others => left.slotStems ++ own ++ slotStemsAll others
    | _ => own ++ slotStemsAll children

/-- The stems of several nodes, one node after the other. -/
def slotStemsAll : List Node → List String
  | [] => []
  | node :: nodes => node.slotStems ++ slotStemsAll nodes

end

/-- How many slots a node itself calls for. -/
def ownSlots (node : Node) : Nat :=
  match node.kind with
  | .index =>
    match node.value with
    | some (.integer i) => if i < 0 then 1 else 0
    | _ => 0
  | .or | .and | .slice => 1
  | .flatten => 2
  | .projection | .multiSelectList | .multiSelectHash | .functionCall => 3
  | .comparator => 5
  | _ => 0

end Node

/-- How many slots a place calls for: an entry of a multi-select hash none besides those of its
expression. -/
def Place.ownSlots : Place → Nat
  | .onLevel _ node => node.ownSlots
  | .entry _ _ => 0

namespace Query

open Node

theorem temporariesAll_eq {nodes : List Node} {queries : List Query}
    (h : List.Forall₂ (fun node query => query.temporaries = node.slotStems) nodes queries) :
    temporariesAll queries = slotStemsAll nodes := by
  induction h with
  | nil => rfl
  | cons hq _ ih => rw [temporariesAll, slotStemsAll, hq, ih]

theorem temporariesEntries_eq {nodes : List Node} {entries : List (String × Query)}
    (h : List.Forall₂ (EntryOf fun node query => query.temporaries = node.slotStems) nodes
      entries) :
    temporariesEntries entries = slotStemsAll nodes := by
  induction h with
  | nil => rfl
  | @cons _ entry _ _ he _ ih =>
    obtain ⟨key, query⟩ := entry
    obtain ⟨child, source, rfl, hq⟩ := he
    rw [temporariesEntries, slotStemsAll, ih]
    simp [hq, slotStems, ownStems, slotStemsAll]

/-- A checked node calls for the temporaries of its query. -/
theorem temporaries_of_check {depth : Nat} {node : Node} {query : Query}
    (h : check depth node = .ok query) : query.temporaries = node.slotStems := by
  refine check_induction (motive := fun _ node query => query.temporaries = node.slotStems)
    ?literal ?field ?index ?slice ?current ?reference ?not ?flatten ?pair ?subexpression ?pipe ?or
    ?and ?projection ?comparator ?list ?hash ?call h
  case literal | field | index | slice | current | reference =>
    intros
    simp [temporaries, slotStems, ownStems]
  case not | flatten | pair =>
    intro _ _ _ _ _ _ hq
    simp [temporaries, slotStems, ownStems, slotStemsAll, hq]
  case subexpression =>
    rintro _ kind _ _ _ _ _ _ _ (rfl | rfl) hl hr
    · simp [temporaries, slotStems, ownStems, slotStemsAll, hl, hr]
    · simp [temporaries, slotStems, ownStems, slotStemsAll, hl, hr]
  case pipe | or | and | projection =>
    intro _ _ _ _ _ _ _ _ hl hr
    simp [temporaries, slotStems, ownStems, slotStemsAll, hl, hr]
  case comparator =>
    intro _ _ _ _ _ _ _ _ _ _ hl hr
    simp [temporaries, slotStems, ownStems, slotStemsAll, hl, hr]
  case list | call =>
    intro _ _ _ _ _ _ hparts
    simp [temporaries, slotStems, ownStems, temporariesAll_eq hparts]
  case hash =>
    intro _ _ _ _ _ _ hparts
    simp [temporaries, slotStems, ownStems, temporariesEntries_eq hparts]

/-- How many slots the places call for together. -/
def slotCount (places : List Place) : Nat := (places.map Place.ownSlots).sum

theorem slotCount_cons (place : Place) (places : List Place) :
    slotCount (place :: places) = place.ownSlots + slotCount places := by
  rw [slotCount, slotCount, List.map_cons, List.sum_cons]

theorem slotCount_append (first second : List Place) :
    slotCount (first ++ second) = slotCount first + slotCount second := by
  rw [slotCount, slotCount, slotCount, List.map_append, List.sum_append]

theorem widthAll_eq {level : Nat} {nodes : List Node} {queries : List Query}
    (h : List.Forall₂ (fun node query => query.width = slotCount (node.places level)) nodes
      queries) : widthAll queries = slotCount (placesAll level nodes) := by
  induction h with
  | nil => rfl
  | cons hq _ ih => rw [widthAll_cons, placesAll, slotCount_append, hq, ih]

theorem widthEntries_eq {hash : Node} {level : Nat} {nodes : List Node}
    {entries : List (String × Query)}
    (h : List.Forall₂ (EntryOf fun node query => query.width = slotCount (node.places level)) nodes
      entries) : widthEntries entries = slotCount (entryPlaces hash level nodes) := by
  induction h with
  | nil => rfl
  | @cons _ entry _ _ he _ ih =>
    obtain ⟨key, query⟩ := entry
    obtain ⟨child, source, rfl, hq⟩ := he
    have hwidth : query.width = slotCount (child.places level) := hq
    rw [widthEntries_cons, entryPlaces, slotCount_cons, slotCount_append, ih, placesAll, placesAll,
      List.append_nil, hwidth, Place.ownSlots, Nat.zero_add]

/-- A checked node takes as many slots as its places call for. -/
theorem width_of_check {depth : Nat} {node : Node} {query : Query}
    (h : check depth node = .ok query) (level : Nat) :
    query.width = slotCount (node.places level) := by
  revert level
  refine check_induction
    (motive := fun _ node query => ∀ level, query.width = slotCount (node.places level))
    ?literal ?field ?index ?slice ?current ?reference ?not ?flatten ?pair ?subexpression ?pipe ?or
    ?and ?projection ?comparator ?list ?hash ?call h
  case literal | field | slice | current | reference =>
    intros
    rfl
  case index =>
    intro _ i _ _ _ level
    simp only [places, slotCount_cons, Place.ownSlots, ownSlots, width, temporaries]
    split
    · rfl
    · rfl
  case not | flatten | pair =>
    intro _ _ _ _ _ _ hq level
    simp only [width_not, width_flatten, hq (level + 1), places, placesAll, List.append_nil,
      slotCount_cons, Place.ownSlots, ownSlots]
    omega
  case subexpression =>
    rintro _ kind _ _ _ _ _ _ _ (rfl | rfl) hl hr level
    · simp only [width_subexpression, hl (level + 1), hr (level + 1), places, placesAll,
        List.append_nil, slotCount_cons, slotCount_append, Place.ownSlots, ownSlots]
      omega
    · simp only [width_subexpression, hl (level + 1), hr (level + 1), places, placesAll,
        List.append_nil, slotCount_cons, slotCount_append, Place.ownSlots, ownSlots]
      omega
  case pipe | or | and | projection =>
    intro _ _ _ _ _ _ _ _ hl hr level
    simp only [width_pipe, width_or, width_and, width_projection, hl (level + 1), hr (level + 1),
      places, placesAll, List.append_nil, slotCount_cons, slotCount_append, Place.ownSlots,
      ownSlots]
    omega
  case comparator =>
    intro _ _ _ _ _ _ _ _ _ _ hl hr level
    simp only [width_comparator, hl (level + 1), hr (level + 1), places, placesAll,
      List.append_nil, slotCount_cons, slotCount_append, Place.ownSlots, ownSlots]
    omega
  case list | call =>
    intro _ _ _ _ _ _ hparts level
    have hall := widthAll_eq (hparts.imp fun _ _ hq => hq (level + 1))
    simp only [width_list, width_call, hall, places, slotCount_cons, Place.ownSlots, ownSlots]
  case hash =>
    intro _ value children source entries _ hparts level
    have hall : widthEntries entries = slotCount
        (entryPlaces ⟨.multiSelectHash, value, children, source⟩ (level + 1) children) := by
      refine widthEntries_eq (hparts.imp ?_)
      rintro pair entry ⟨child, pairSource, rfl, hq⟩
      exact ⟨child, pairSource, rfl, hq (level + 1)⟩
    simp only [width_hash, hall, places, slotCount_cons, Place.ownSlots, ownSlots]

end Query

/-! ## Numbered names -/

namespace Symbols

/-- The stem has no digit in it. -/
def Plain (stem : String) : Prop := ∀ c ∈ stem.toList, c.isDigit = false

/-- A name tells its stem and its number, if the stem has no digit. -/
theorem candidate_inj {a b : String} {n m : Nat} (ha : Plain a) (hb : Plain b)
    (h : candidate a n = candidate b m) : a = b ∧ n = m := by
  have hletters (stem : String) (k : Nat) (hs : Plain stem) :
      (candidate stem k).toList.filter (fun c => !c.isDigit) = stem.toList := by
    rw [toList_candidate, List.filter_append,
      List.filter_eq_self.2 fun c hc => by rw [hs c hc, Bool.not_false],
      List.filter_eq_nil_iff.2 fun c hc => by rw [isDigit_of_mem_suffix hc]; decide,
      List.append_nil]
  have hstem : a = b := by
    rw [← String.toList_inj, ← hletters a n ha, h, hletters b m hb]
  subst hstem
  exact ⟨rfl, candidate_injective a h⟩

/-- Names were issued for the stems in `done`, in some order: for each stem that has no digit the
first ones, and as many as it was asked for. -/
structure Numbered (symbols : Symbols) (done : List String) : Prop where
  covered : symbols.Covered
  mem_issued : ∀ {stem}, Plain stem → ∀ n,
    candidate stem n ∈ symbols.issued ↔ n < done.count stem

theorem numbered_empty : ({} : Symbols).Numbered [] :=
  ⟨covered_empty, by simp⟩

variable {symbols : Symbols} {done : List String} {stem : String}

/-- The next name for a stem has the number of names that were issued for it. -/
theorem Numbered.allocate_eq (h : symbols.Numbered done) (hs : Plain stem) :
    (symbols.allocate stem).1 = candidate stem (done.count stem) := by
  obtain ⟨n, hn, hfree, htaken⟩ := firstFree_allocate h.covered stem
  rw [h.mem_issued hs] at hfree
  have hle : n ≤ done.count stem := by
    by_contra hlt
    have := (h.mem_issued hs _).1 (htaken (done.count stem) (by omega))
    omega
  rw [hn, show n = done.count stem by omega]

theorem Numbered.allocate (h : symbols.Numbered done) (hs : Plain stem) :
    (symbols.allocate stem).2.Numbered (stem :: done) where
  covered := covered_allocate h.covered stem
  mem_issued := by
    intro other ho n
    rw [issued_allocate, h.allocate_eq hs, List.mem_cons, h.mem_issued ho, List.count_cons]
    by_cases heq : stem = other
    · subst heq
      rw [(candidate_injective stem).eq_iff, beq_self_eq_true, if_pos rfl]
      omega
    · have hne : candidate other n ≠ candidate stem (done.count stem) := by
        intro hc
        exact heq (candidate_inj ho hs hc).1.symm
      rw [beq_eq_false_iff_ne.2 heq]
      simp [hne]

/-- The `i`-th of the names that are issued in a row has the number of earlier names of its stem. -/
theorem Numbered.getElem?_allocateAll (h : symbols.Numbered done) {stems : List String}
    (hs : ∀ stem ∈ stems, Plain stem) {i : Nat} (hi : stems[i]? = some stem) :
    (symbols.allocateAll stems)[i]? =
      some (candidate stem (done.count stem + (stems.take i).count stem)) := by
  induction stems generalizing symbols done i with
  | nil => cases hi
  | cons first stems ih =>
    obtain ⟨hfirst, hstems⟩ := List.forall_mem_cons.1 hs
    rw [allocateAll_cons]
    cases i with
    | zero =>
      cases hi
      rw [List.getElem?_cons_zero, h.allocate_eq hfirst, List.take_zero, List.count_nil,
        Nat.add_zero]
    | succ i =>
      rw [List.getElem?_cons_succ, ih (h.allocate hfirst) hstems hi, List.take_succ_cons,
        List.count_cons, List.count_cons]
      congr 2
      omega

end Symbols

/-! ## Compiled procedures -/

theorem plain_of_mem_stems {stem : String} (h : stem ∈ Query.stems) : Symbols.Plain stem := by
  revert stem
  simp [Query.stems, Symbols.Plain]

/-- A stem of slots, with or without a number, is an identifier. -/
theorem isIdentifier_candidate {stem : String} (h : stem ∈ Query.stems) (n : Nat) :
    Procedure.isIdentifier (Symbols.candidate stem n) = true := by
  have hstem : ∃ c cs, stem.toList = c :: cs ∧ (c.isAlpha || c == '_') = true ∧
      (cs.all fun c => c.isAlphanum || c == '_') = true := by
    revert stem
    simp [Query.stems]
  obtain ⟨c, cs, hcs, hfirst, hrest⟩ := hstem
  rw [Procedure.isIdentifier, Symbols.toList_candidate, hcs, List.cons_append]
  simp only [hfirst, List.all_append, hrest, Bool.true_and, List.all_eq_true]
  intro d hd
  rw [Char.isAlphanum, Symbols.isDigit_of_mem_suffix hd, Bool.or_true, Bool.true_or]

namespace Procedure

open Symbols

/-- The table of slots of a compiled procedure. It starts with `value` and `current`. The `i`-th
slot has the stem that the tree asks for at this point; it has the stem as its name if no slot
before it has that stem, and else the stem followed by the number of slots before it that have it.
All names are different and all are identifiers. Besides the first two there is one slot for each
negative index, disjunction, conjunction and slice of the tree, two for each flatten, three for each
projection, multi-select and function call, and five for each comparator. -/
theorem slot_table {node : Node} {options : Options} {first : Nat} {procedure : Procedure}
    (h : compile node options first = .ok procedure) :
    (∃ names, procedure.slots = "value" :: "current" :: names) ∧
      (∀ i stem, ("value" :: "current" :: node.slotStems)[i]? = some stem →
        procedure.slots[i]? = some (candidate stem
          ((("value" :: "current" :: node.slotStems).take i).count stem))) ∧
      procedure.slots.length = ("value" :: "current" :: node.slotStems).length ∧
      procedure.slots.Nodup ∧
      (∀ name ∈ procedure.slots, identifier.rmatch name.toList = true) ∧
      procedure.slots.length = 2 + ((node.places 1).map Place.ownSlots).sum := by
  obtain ⟨query, hq, rfl⟩ := compile_eq_ok h
  obtain ⟨checked, hc, rfl⟩ := map_eq_ok hq
  have htable : (ofQuery options (checked.number first)).slots =
      ({} : Symbols).allocateAll ("value" :: "current" :: node.slotStems) := by
    rw [ofQuery, Query.temporaries_number, Query.temporaries_of_check hc]
  have hstems : ∀ stem ∈ "value" :: "current" :: node.slotStems, stem ∈ Query.stems := by
    rw [← Query.temporaries_of_check hc, List.forall_mem_cons, List.forall_mem_cons]
    exact ⟨by decide, by decide, fun stem hs => checked.temporaries_subset_stems hs⟩
  rw [htable]
  refine ⟨⟨_, rfl⟩, fun i stem hi => ?_, length_allocateAll _ _, nodup_allocateAll _ _, ?_, ?_⟩
  · have hplain := fun stem hs => plain_of_mem_stems (hstems stem hs)
    rw [numbered_empty.getElem?_allocateAll hplain hi, List.count_nil, Nat.zero_add]
  · intro name hname
    obtain ⟨stem, hs, n, rfl⟩ := exists_candidate_of_mem_allocateAll hname
    exact (isIdentifier_iff _).1 (isIdentifier_candidate (hstems stem hs) n)
  · have hwidth := Query.width_of_check hc 1
    rw [Query.width, Query.temporaries_of_check hc, Query.slotCount] at hwidth
    rw [length_allocateAll, List.length_cons, List.length_cons, hwidth]
    omega

/-- A disjunction of two projections inside each other and a comparison, all of which save what they
start from. -/
theorem slot_table_nested :
    let node : Node := .binary .or
      (.projection none .current (.projection (some .object) .current (.index (-1))))
      (.comparator .less (.slice none none none) .current)
    let query : Query := .or
      (.projection .array .current (.projection .object .current (.index (-1))))
      (.comparator .less (.slice none none none) .current)
    compile node {} = .ok (ofQuery {} query) ∧
      (ofQuery {} query).slots = ["value", "current", "saved", "base", "collected", "element",
        "base1", "collected1", "element1", "index", "saved1", "saved_current", "left", "right",
        "result", "args"] ∧
      ("value" :: "current" :: node.slotStems)[10]? = some "saved" ∧
      (ofQuery {} query).slots[10]? = some (candidate "saved" 1) ∧
      (ofQuery {} query).slots.Nodup ∧
      (ofQuery {} query).slots.length = 2 + ((node.places 1).map Place.ownSlots).sum := by
  intro node query
  have hc : compile node {} = .ok (ofQuery {} query) := by cbv
  have hstem : ("value" :: "current" :: node.slotStems)[10]? = some "saved" := by cbv
  obtain ⟨-, hnames, -, hnodup, -, hlength⟩ := slot_table hc
  exact ⟨hc, by decide +kernel, hstem, (hnames 10 "saved" hstem).trans (by cbv), hnodup, hlength⟩

end Procedure

end PathQuery
