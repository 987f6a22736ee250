import Mathlib
import PathQuery.Procedure
import PathQuery.Proofs.Visits

/-!
# Slots of lowered queries

The code of a query reads and writes the two registers and the temporaries that were set aside for
it, and nothing else:

* `Query.lowerEach`: the code that multi-selects and calls have in common, and
  `Query.ShortCircuit`: what disjunctions and conjunctions have in common;
* `Query.uses_lower`: the slots of a query's code, at any depth;
* `Query.keeps_lower`: so a run of it keeps the temporaries below its own, also when it stops at an
  error. All that is said of runs of lowered code rests on this;
* `lowered_slots`: the same of syntax trees, and that no slot of a compiled procedure is out of
  bounds.
-/

namespace PathQuery

namespace Slot

/-- The slots that code may use whose temporaries stand from `n` up to `m`. -/
def Within (n m : Nat) (slot : Slot) : Prop :=
  slot = .value ∨ slot = .current ∨ n ≤ slot.index ∧ slot.index < m

@[simp] theorem within_value (n m : Nat) : Slot.value.Within n m := .inl rfl

@[simp] theorem within_current (n m : Nat) : Slot.current.Within n m := .inr (.inl rfl)

theorem within_mk {n m i : Nat} (hn : n ≤ i) (hm : i < m) : Within n m ⟨i⟩ :=
  .inr (.inr ⟨hn, hm⟩)

theorem Within.mono {n m n' m' : Nat} {slot : Slot} (h : slot.Within n m) (hn : n' ≤ n)
    (hm : m ≤ m') : slot.Within n' m' :=
  h.imp_right <| Or.imp_right fun h => ⟨Nat.le_trans hn h.1, Nat.lt_of_lt_of_le h.2 hm⟩

end Slot

namespace Stmt

/-- A block uses no slots but the registers and the temporaries from `n` up to `m`. -/
def Uses (n m : Nat) (block : List Stmt) : Prop := ∀ slot ∈ slotsAll block, slot.Within n m

section

variable {n m : Nat} {rest : List Stmt}

theorem Uses.mono {n' m' : Nat} {block : List Stmt} (h : Uses n m block) (hn : n' ≤ n)
    (hm : m ≤ m') : Uses n' m' block :=
  fun slot hs => (h slot hs).mono hn hm

@[simp] theorem uses_nil : Uses n m [] := List.forall_mem_nil _

@[simp] theorem uses_append_iff {first second : List Stmt} :
    Uses n m (first ++ second) ↔ Uses n m first ∧ Uses n m second := by
  rw [Uses, slotsAll_append, List.forall_mem_append]; rfl

@[simp] theorem uses_assign_iff {target : Slot} {expr : Expr} :
    Uses n m (.assign target expr :: rest) ↔
      target.Within n m ∧ (∀ slot ∈ expr.slots, slot.Within n m) ∧ Uses n m rest := by
  simp [Uses, slotsAll, slots, or_imp, forall_and]

@[simp] theorem uses_copy_iff {target source : Slot} :
    Uses n m (.copy target source :: rest) ↔
      target.Within n m ∧ source.Within n m ∧ Uses n m rest := by
  simp [copy, Expr.slots]

@[simp] theorem uses_branch_iff {test : Test} {yes no : List Stmt} :
    Uses n m (.branch test yes no :: rest) ↔
      test.slot.Within n m ∧ Uses n m yes ∧ Uses n m no ∧ Uses n m rest := by
  simp [Uses, slotsAll, slots, or_imp, forall_and]

@[simp] theorem uses_when_iff {test : Test} {yes : List Stmt} :
    Uses n m (.when test yes :: rest) ↔ test.slot.Within n m ∧ Uses n m yes ∧ Uses n m rest := by
  simp [when]

@[simp] theorem uses_forEach_iff {item source : Slot} {body : List Stmt} :
    Uses n m (.forEach item source body :: rest) ↔
      item.Within n m ∧ source.Within n m ∧ Uses n m body ∧ Uses n m rest := by
  simp [Uses, slotsAll, slots, or_imp, forall_and]

@[simp] theorem uses_push_iff {list item : Slot} :
    Uses n m (.push list item :: rest) ↔
      list.Within n m ∧ item.Within n m ∧ Uses n m rest := by
  simp [Uses, slotsAll, slots, or_imp, forall_and]

@[simp] theorem uses_extend_iff {list items : Slot} :
    Uses n m (.extend list items :: rest) ↔
      list.Within n m ∧ items.Within n m ∧ Uses n m rest := by
  simp [Uses, slotsAll, slots, or_imp, forall_and]

@[simp] theorem uses_insert_iff {object item : Slot} {key : String} :
    Uses n m (.insert object key item :: rest) ↔
      object.Within n m ∧ item.Within n m ∧ Uses n m rest := by
  simp [Uses, slotsAll, slots, or_imp, forall_and]

end

end Stmt

namespace Query

open Stmt Slot

/-! ## Widths -/

/-- How many temporaries several queries need together. -/
def widthAll (queries : List Query) : Nat := (temporariesAll queries).length

@[inherit_doc widthAll]
def widthEntries (entries : List (String × Query)) : Nat := (temporariesEntries entries).length

section

attribute [local simp] width temporaries widthAll temporariesAll widthEntries temporariesEntries

variable (left right query : Query)

@[simp] theorem width_subexpression :
    (subexpression left right).width = left.width + right.width := by
  simp

@[simp] theorem width_pipe : (pipe left right).width = left.width + right.width := by
  simp

@[simp] theorem width_or : (or left right).width = 1 + left.width + right.width := by
  simp; omega

@[simp] theorem width_and : (and left right).width = 1 + left.width + right.width := by
  simp; omega

@[simp] theorem width_not : (not query).width = query.width := by
  simp

@[simp] theorem width_flatten : (flatten query).width = query.width + 2 := by
  simp

@[simp] theorem width_projection (source : SourceKind) :
    (projection source left right).width = left.width + 3 + right.width := by
  simp; omega

@[simp] theorem width_comparator (op : Comparator) :
    (comparator op left right).width = 5 + left.width + right.width := by
  simp; omega

@[simp] theorem widthAll_cons (queries : List Query) :
    widthAll (query :: queries) = query.width + widthAll queries := by
  simp

@[simp] theorem widthEntries_cons (key : String) (entries : List (String × Query)) :
    widthEntries ((key, query) :: entries) = query.width + widthEntries entries := by
  simp

@[simp] theorem width_list (items : List Query) : (list items).width = 3 + widthAll items := by
  simp; omega

@[simp] theorem width_hash (entries : List (String × Query)) :
    (hash entries).width = 3 + widthEntries entries := by
  simp; omega

@[simp] theorem width_call (name : String) (args : List Query) :
    (call name args).width = 3 + widthAll args := by
  simp; omega

@[simp] theorem width_slice (start stop step : Option Int) :
    (slice start stop step).width = 1 := by
  simp

end

theorem temporaries_numberAll {queries : List Query}
    (h : ∀ query ∈ queries, ∀ k, (query.number k).temporaries = query.temporaries) (k : Nat) :
    temporariesAll (numberAll k queries) = temporariesAll queries := by
  induction queries generalizing k with
  | nil => rfl
  | cons query queries ih =>
    obtain ⟨hq, hqs⟩ := List.forall_mem_cons.1 h
    rw [numberAll, temporariesAll, temporariesAll, hq, ih hqs]

theorem temporaries_numberEntries {entries : List (String × Query)}
    (h : ∀ entry ∈ entries, ∀ k, (entry.2.number k).temporaries = entry.2.temporaries) (k : Nat) :
    temporariesEntries (numberEntries k entries) = temporariesEntries entries := by
  induction entries generalizing k with
  | nil => rfl
  | cons entry entries ih =>
    obtain ⟨key, query⟩ := entry
    obtain ⟨hq, hqs⟩ := List.forall_mem_cons.1 h
    rw [numberEntries, temporariesEntries, temporariesEntries, hq, ih hqs]

/-- Numbering the expression references of a query does not change its temporaries. -/
theorem temporaries_number (query : Query) (k : Nat) :
    (query.number k).temporaries = query.temporaries := by
  induction query generalizing k with
  | literal _ | field _ | index _ | current | slice _ _ _ | reference _ _ =>
    simp only [number, temporaries]
  | not query ih | flatten query ih => simp only [number, temporaries, ih]
  | subexpression left right ihl ihr | pipe left right ihl ihr | or left right ihl ihr
  | and left right ihl ihr | projection _ left right ihl ihr | comparator _ left right ihl ihr =>
    simp only [number, temporaries, ihl, ihr]
  | list items ih | call _ items ih => simp only [number, temporaries, temporaries_numberAll ih]
  | hash entries ih => simp only [number, temporaries, temporaries_numberEntries ih]

theorem width_number (query : Query) (k : Nat) : (query.number k).width = query.width :=
  congrArg List.length (query.temporaries_number k)

/-! ## Code of the same shape -/

/-- The query is a disjunction or conjunction of two others, whose right side runs if `test` holds
of the answer of the left side. -/
inductive ShortCircuit : Query → Query → Query → Test → Prop
  | or (left right : Query) : ShortCircuit (.or left right) left right (.falsy .value)
  | and (left right : Query) : ShortCircuit (.and left right) left right (.not (.falsy .value))

namespace ShortCircuit

variable {query left right : Query} {test : Test}

theorem lower_eq (h : ShortCircuit query left right test) (n : Nat) :
    query.lower n = lowerShortCircuit ⟨n⟩ test (left.lower (n + 1))
      (right.lower (n + 1 + left.width)) := by
  cases h <;> rw [lower]

theorem temporaries_eq (h : ShortCircuit query left right test) :
    query.temporaries = "saved" :: (left.temporaries ++ right.temporaries) := by
  cases h <;> rw [temporaries]

theorem width_eq (h : ShortCircuit query left right test) :
    query.width = 1 + left.width + right.width := by
  rw [width, h.temporaries_eq, List.length_cons, List.length_append, width, width]
  omega

theorem number (h : ShortCircuit query left right test) (k : Nat) :
    ShortCircuit (query.number k) (left.number k) (right.number (k + left.references)) test := by
  cases h with
  | or => exact .or _ _
  | and => exact .and _ _

end ShortCircuit

/-- One of the queries whose answers are collected in an array or an object: an object has a key for
each of them. -/
structure Member where
  key : Option String
  query : Query

namespace Member

def ofItem (query : Query) : Member := ⟨none, query⟩

def ofEntry (entry : String × Query) : Member := ⟨some entry.1, entry.2⟩

/-- The statement that stores the answer of the query in slot `target`. -/
def store (target : Slot) (member : Member) : Stmt :=
  match member.key with
  | none => .push target .value
  | some key => .insert target key .value

end Member

/-- The code that runs each query on the value in `base` and stores its answer in `target`; the
temporaries of the queries start at slot `n`. -/
def lowerEach (base baseCurrent target : Slot) (n : Nat) : List Member → List Stmt
  | [] => []
  | member :: members =>
    .copy .value base :: .copy .current baseCurrent :: member.query.lower n ++
      member.store target ::
        lowerEach base baseCurrent target (n + member.query.width) members

/-- How many temporaries several queries need together. -/
def widthEach (members : List Member) : Nat := (members.map fun member => member.query.width).sum

@[simp] theorem widthEach_cons (member : Member) (members : List Member) :
    widthEach (member :: members) = member.query.width + widthEach members := by
  rw [widthEach, widthEach, List.map_cons, List.sum_cons]

theorem lowerItems_eq (base baseCurrent list : Slot) (n : Nat) (items : List Query) :
    lowerItems base baseCurrent list n items =
      lowerEach base baseCurrent list n (items.map Member.ofItem) := by
  induction items generalizing n with
  | nil => rfl
  | cons item items ih => rw [lowerItems, List.map_cons, lowerEach, ih]; rfl

theorem lowerEntries_eq (base baseCurrent object : Slot) (n : Nat)
    (entries : List (String × Query)) :
    lowerEntries base baseCurrent object n entries =
      lowerEach base baseCurrent object n (entries.map Member.ofEntry) := by
  induction entries generalizing n with
  | nil => rfl
  | cons entry entries ih => rw [lowerEntries, List.map_cons, lowerEach, ih]; rfl

/-- The members with the expression references in them numbered from `k` on. -/
def numberEach (k : Nat) : List Member → List Member
  | [] => []
  | member :: members =>
    ⟨member.key, member.query.number k⟩ :: numberEach (k + member.query.references) members

theorem map_ofItem_numberAll (k : Nat) (items : List Query) :
    (numberAll k items).map Member.ofItem = numberEach k (items.map Member.ofItem) := by
  induction items generalizing k with
  | nil => rfl
  | cons item items ih => rw [numberAll, List.map_cons, ih, List.map_cons, numberEach]; rfl

theorem map_ofEntry_numberEntries (k : Nat) (entries : List (String × Query)) :
    (numberEntries k entries).map Member.ofEntry = numberEach k (entries.map Member.ofEntry) := by
  induction entries generalizing k with
  | nil => rfl
  | cons entry entries ih => rw [numberEntries, List.map_cons, ih, List.map_cons, numberEach]; rfl

@[simp] theorem widthEach_items (items : List Query) :
    widthEach (items.map Member.ofItem) = widthAll items := by
  induction items with
  | nil => rfl
  | cons item items ih => rw [List.map_cons, widthEach_cons, ih, widthAll_cons, Member.ofItem]

@[simp] theorem widthEach_entries (entries : List (String × Query)) :
    widthEach (entries.map Member.ofEntry) = widthEntries entries := by
  induction entries with
  | nil => rfl
  | cons entry entries ih =>
    rw [List.map_cons, widthEach_cons, ih, widthEntries_cons, Member.ofEntry]

/-! ## The slots of lowered code -/

theorem uses_lowerIndex (n : Nat) (i : Int) : Uses n (n + (index i).width) (lowerIndex ⟨n⟩ i) := by
  by_cases hi : i < 0
  · simp (disch := omega) [lowerIndex, width, temporaries, hi, Expr.slots, Operand.slots, within_mk]
  · simp [lowerIndex, hi, Expr.slots, Operand.slots]

theorem uses_lowerFlatten (n : Nat) : Uses n (n + 2) [lowerFlatten ⟨n⟩ ⟨n + 1⟩] := by
  simp (disch := omega) [lowerFlatten, lowerSplice, setNull, Test.slot, Expr.slots, within_mk]

theorem uses_lowerProjection {n m : Nat} {body : List Stmt} (source : SourceKind) (hm : n + 3 ≤ m)
    (h : Uses (n + 3) m body) :
    Uses n m [lowerProjection source ⟨n⟩ ⟨n + 1⟩ ⟨n + 2⟩ body] := by
  have hg : (guard source).slot = .value := by cases source <;> rfl
  have hb : Uses n m body := h.mono (by omega) (by omega)
  simp (disch := omega) [lowerProjection, setNull, Test.slot, Expr.slots, within_mk, hg, hb]

@[simp] theorem uses_store_iff {n m : Nat} {target : Slot} {member : Member} {rest : List Stmt} :
    Uses n m (member.store target :: rest) ↔ target.Within n m ∧ Uses n m rest := by
  obtain ⟨_ | key, query⟩ := member <;> simp [Member.store]

/-- The code of several queries, given the same of each of them. -/
theorem uses_lowerEach {members : List Member} (b : Nat) {n : Nat} (hn : b + 3 ≤ n)
    (h : ∀ member ∈ members, ∀ n, Uses n (n + member.query.width) (member.query.lower n)) :
    Uses b (n + widthEach members) (lowerEach ⟨b⟩ ⟨b + 1⟩ ⟨b + 2⟩ n members) := by
  induction members generalizing n with
  | nil => simp [lowerEach]
  | cons member members ih =>
    obtain ⟨hm, hr⟩ := List.forall_mem_cons.1 h
    have hmember : Uses b (n + (member.query.width + widthEach members)) (member.query.lower n) :=
      (hm n).mono (by omega) (by omega)
    have hrest : Uses b (n + (member.query.width + widthEach members))
        (lowerEach _ _ _ _ members) :=
      (@ih (n + member.query.width) (by omega) hr).mono (by omega) (by omega)
    simp (disch := omega) [lowerEach, within_mk, hmember, hrest]

/-- The code of a query uses its own temporaries only. -/
theorem uses_lower (query : Query) (n : Nat) : Uses n (n + query.width) (query.lower n) := by
  induction query generalizing n with
  | literal value => simp [lower, Expr.slots]
  | field name => simp [lower, setNull, Test.slot, Expr.slots]
  | index i => simp [lower, setNull, Test.slot, Expr.slots, uses_lowerIndex]
  | current => simp [lower]
  | subexpression left right ihl ihr =>
    have hl : Uses n (n + (left.width + right.width)) (left.lower n) :=
      (ihl n).mono (by omega) (by omega)
    have hr : Uses n (n + (left.width + right.width)) (right.lower (n + left.width)) :=
      (ihr (n + left.width)).mono (by omega) (by omega)
    simp [lower, Test.slot, hl, hr]
  | pipe left right ihl ihr =>
    have hl : Uses n (n + (left.width + right.width)) (left.lower n) :=
      (ihl n).mono (by omega) (by omega)
    have hr : Uses n (n + (left.width + right.width)) (right.lower (n + left.width)) :=
      (ihr (n + left.width)).mono (by omega) (by omega)
    simp [lower, hl, hr]
  | or left right ihl ihr | and left right ihl ihr =>
    have hl : Uses n (n + (1 + left.width + right.width)) (left.lower (n + 1)) :=
      (ihl (n + 1)).mono (by omega) (by omega)
    have hr : Uses n (n + (1 + left.width + right.width)) (right.lower (n + 1 + left.width)) :=
      (ihr (n + 1 + left.width)).mono (by omega) (by omega)
    simp (disch := omega) [lower, lowerShortCircuit, Test.slot, within_mk, hl, hr]
  | not query ih => simp [lower, Expr.slots, ih n]
  | flatten query ih =>
    have hq : Uses n (n + (query.width + 2)) (query.lower n) := (ih n).mono (by omega) (by omega)
    have hf : Uses n (n + (query.width + 2)) [_] :=
      (uses_lowerFlatten (n + query.width)).mono (by omega) (by omega)
    simp [lower, hq, hf]
  | projection source left right ihl ihr =>
    have hl : Uses n (n + (left.width + 3 + right.width)) (left.lower n) :=
      (ihl n).mono (by omega) (by omega)
    have hp : Uses n (n + (left.width + 3 + right.width)) [_] :=
      (uses_lowerProjection source (by omega) (ihr (n + left.width + 3))).mono (by omega) (by omega)
    simp [lower, hl, hp]
  | comparator op left right ihl ihr =>
    have hl : Uses n (n + (5 + left.width + right.width)) (left.lower (n + 5)) :=
      (ihl (n + 5)).mono (by omega) (by omega)
    have hr : Uses n (n + (5 + left.width + right.width)) (right.lower (n + 5 + left.width)) :=
      (ihr (n + 5 + left.width)).mono (by omega) (by omega)
    simp (disch := omega) [lower, lowerSide, lowerComparison, setNull, Test.slot, Expr.slots,
      within_mk, hl, hr]
  | list items ih =>
    have hi : Uses n (n + (3 + widthAll items))
        (lowerEach ⟨n⟩ ⟨n + 1⟩ ⟨n + 2⟩ (n + 3) (items.map Member.ofItem)) :=
      (uses_lowerEach n (by omega) (List.forall_mem_map.2 ih)).mono (by omega) (by simp; omega)
    simp (disch := omega) [lower, lowerItems_eq, Test.slot, Expr.slots, within_mk, hi]
  | hash entries ih =>
    have he : Uses n (n + (3 + widthEntries entries))
        (lowerEach ⟨n⟩ ⟨n + 1⟩ ⟨n + 2⟩ (n + 3) (entries.map Member.ofEntry)) :=
      (uses_lowerEach n (by omega) (List.forall_mem_map.2 ih)).mono (by omega) (by simp; omega)
    simp (disch := omega) [lower, lowerEntries_eq, Test.slot, Expr.slots, within_mk, he]
  | call name args ih =>
    have ha : Uses n (n + (3 + widthAll args))
        (lowerEach ⟨n⟩ ⟨n + 1⟩ ⟨n + 2⟩ (n + 3) (args.map Member.ofItem)) :=
      (uses_lowerEach n (by omega) (List.forall_mem_map.2 ih)).mono (by omega) (by simp; omega)
    simp (disch := omega) [lower, lowerItems_eq, Expr.slots, within_mk, ha]
  | slice start stop step =>
    simp (disch := omega) [lower, lowerSlice, bounds, Expr.slots, Operand.slots, within_mk]
  | reference site node => simp [lower, Expr.slots]

end Query

/-! ## What a run keeps -/

namespace Frame

/-- The frames have one size and the same temporaries below slot `n`. -/
structure Keeps (n : Nat) (before after : Frame) : Prop where
  size : after.slots.size = before.slots.size
  get : ∀ i, 2 ≤ i → i < n → after.get ⟨i⟩ = before.get ⟨i⟩

attribute [grind →] Keeps.size

end Frame

/-- A block that uses no temporaries below slot `n` keeps them, also when it stops at an error. -/
theorem Stmt.Uses.keeps {σ : Type} {n m : Nat} {block : List Stmt} (h : Uses n m block)
    (host : Host σ) (frame : Frame) (s : σ) :
    frame.Keeps n (execAll host block frame s).frame := by
  have hc := execAll_changedIn host block frame s
  refine ⟨hc.size, fun i h2 hn => hc.get ⟨i⟩ fun hi => ?_⟩
  rcases h _ hi with hv | hv | ⟨hl, -⟩
  · exact absurd (congrArg Slot.index hv) (by simp only [Slot.index_value]; omega)
  · exact absurd (congrArg Slot.index hv) (by simp only [Slot.index_current]; omega)
  · exact absurd hn (Nat.not_lt.2 hl)

theorem Query.keeps_lower {σ : Type} (host : Host σ) (query : Query) (n : Nat) (frame : Frame)
    (s : σ) : frame.Keeps n (Stmt.execAll host (query.lower n) frame s).frame :=
  (query.uses_lower n).keeps host frame s

/-! ## Compiled procedures -/

theorem Symbols.length_allocateAll (symbols : Symbols) (stems : List String) :
    (symbols.allocateAll stems).length = stems.length := by
  induction stems generalizing symbols with
  | nil => rfl
  | cons stem stems ih => simp only [allocateAll, List.length_cons, ih]

/-- The query that a syntax tree spells out, with its expression references numbered from `first`
on. -/
def Query.ofNode (first : Nat) (node : Node) : Except CompileError Query :=
  (check 0 node).map (number first)

namespace Procedure

/-- The procedure of a query. -/
def ofQuery (options : Options) (query : Query) : Procedure where
  name := options.name
  display := options.display
  slots := ({} : Symbols).allocateAll ("value" :: "current" :: query.temporaries)
  body := .copy .current .value :: query.lower 2

theorem length_slots_ofQuery (options : Options) (query : Query) :
    (ofQuery options query).slots.length = 2 + query.width := by
  simp only [ofQuery, Symbols.length_allocateAll, List.length_cons, Query.width]
  omega

/-- Compiling a tree whose name is in order comes down to making its query. -/
theorem compile_eq_ofQuery (node : Node) {options : Options} (h : isIdentifier options.name = true)
    (first : Nat) :
    compile node options first = (Query.ofNode first node).map (ofQuery options) := by
  rw [compile, if_pos h, Stage.lower, Query.ofNode]
  cases hq : Query.check (Stage.start first).depth node with
  | error e => rw [show Query.check 0 node = .error e from hq]; rfl
  | ok query =>
    rw [show Query.check 0 node = .ok query from hq]
    simp only [Except.map, ofQuery, Query.temporaries_number]
    rfl

theorem compile_eq_ok {node : Node} {options : Options} {first : Nat} {procedure : Procedure}
    (h : compile node options first = .ok procedure) :
    ∃ query, Query.ofNode first node = .ok query ∧ procedure = ofQuery options query := by
  by_cases hn : isIdentifier options.name = true
  · rw [compile_eq_ofQuery node hn] at h
    cases hq : Query.ofNode first node with
    | ok query =>
      rw [hq] at h
      exact ⟨query, rfl, (Except.ok.inj h).symm⟩
    | error e =>
      rw [hq] at h
      cases h
  · rw [compile, if_neg hn] at h
    cases h

/-- All slots of a procedure's body have a place in its frames and a name. -/
theorem index_lt_length_slots {options : Options} {query : Query} {slot : Slot}
    (h : slot ∈ Stmt.slotsAll (ofQuery options query).body) :
    slot.index < (ofQuery options query).slots.length := by
  have hu : Stmt.Uses 2 (2 + query.width) (ofQuery options query).body := by
    simp [ofQuery, query.uses_lower 2]
  rw [length_slots_ofQuery]
  rcases hu slot h with rfl | rfl | ⟨-, hm⟩
  · simp only [Slot.index_value]; omega
  · simp only [Slot.index_current]; omega
  · exact hm

end Procedure

/-- A node that stands behind `n` slots lowers to `code` and leaves `m` slots taken. How deep the
node stands and where its expression references are numbered from does not matter. -/
def Node.Lowers (node : Node) (n : Nat) (code : List Stmt) (m : Nat) : Prop :=
  ∃ (depth site : Nat) (query : Query), Query.check depth node = .ok query ∧
    code = (query.number site).lower n ∧ m = n + (query.number site).width

open Stmt Procedure in
/-- The code of a node that stands behind `n` slots uses the registers and its own temporaries
only, and a run of it keeps all temporaries below `n`, whether it succeeds or stops at an error. So
a compiled procedure has a name for every slot of its body, and a run of it never reaches for a
slot outside its frame. -/
theorem lowered_slots (node : Node) :
    (∀ n code m, node.Lowers n code m →
      (∀ slot ∈ slotsAll code,
        slot = .value ∨ slot = .current ∨ n ≤ slot.index ∧ slot.index < m) ∧
      ∀ (σ : Type) (host : Host σ) (frame : Frame) (s : σ) (i : Nat), 2 ≤ i → i < n →
        (execAll host code frame s).frame.get ⟨i⟩ = frame.get ⟨i⟩) ∧
    ∀ options first procedure, compile node options first = .ok procedure →
      (∀ slot ∈ slotsAll procedure.body, slot.index < procedure.slots.length) ∧
      ∀ (σ : Type) (host : Host σ) (root : Value) (s : σ) (moment : Moment σ),
        Visits host procedure.body (Frame.start procedure.slots.length root) s moment →
        ∀ slot ∈ moment.stmt.slots, slot.index < moment.frame.slots.size := by
  constructor
  · rintro n code m ⟨depth, site, query, -, rfl, rfl⟩
    refine ⟨(query.number site).uses_lower n, fun σ host frame s i h2 hn => ?_⟩
    exact ((query.number site).keeps_lower host n frame s).get i h2 hn
  · intro options first procedure h
    obtain ⟨query, -, rfl⟩ := compile_eq_ok h
    refine ⟨fun slot => index_lt_length_slots, fun σ host root s moment hv slot hs => ?_⟩
    obtain ⟨hsub, hsize⟩ := hv.slots_subset
    rw [hsize, Frame.size_start]
    exact index_lt_length_slots (hsub hs)

open Stmt Procedure in
/-- A projection behind seven slots, whose second round fails in the middle of a call. -/
theorem lowered_slots_projection :
    let node : Node :=
      .projection none .current (.binary .or (.index (-1)) (.functionCall "rank" [.current]))
    let query : Query := .projection .array .current (.or (.index (-1)) (.call "rank" [.current]))
    let rows : Value := .array [.array [.integer 1], .integer 2]
    node.Lowers 7 (query.lower 7) 15 ∧ compile node {} = .ok (ofQuery {} query) ∧
      (∀ slot ∈ slotsAll (query.lower 7),
        slot = .value ∨ slot = .current ∨ 7 ≤ slot.index ∧ slot.index < 15) ∧
      (execAll .unbound (query.lower 7) (.start 15 rows) ()).error =
        some (.unknownFunction "rank") ∧
      (execAll .unbound (query.lower 7) (.start 15 rows) ()).frame.get ⟨6⟩ =
        (Frame.start 15 rows).get ⟨6⟩ ∧
      (ofQuery {} query).slots.length = 10 ∧
      ∀ slot ∈ slotsAll (ofQuery {} query).body, slot.index < (ofQuery {} query).slots.length := by
  intro node query rows
  have hl : node.Lowers 7 (query.lower 7) 15 := ⟨0, 0, query, by cbv, rfl, by cbv⟩
  have hc : compile node {} = .ok (ofQuery {} query) := by cbv
  obtain ⟨hcode, hbody⟩ := lowered_slots node
  obtain ⟨hslots, hkept⟩ := hcode 7 _ 15 hl
  exact ⟨hl, hc, hslots, by cbv, hkept Unit .unbound _ () 6 (by decide) (by decide), by cbv,
    (hbody {} 0 _ hc).1⟩

end PathQuery
