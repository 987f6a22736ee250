import Mathlib
import PathQuery.Host.Tracing
import PathQuery.Proofs.Constructs
import PathQuery.Proofs.Hygiene

/-!
# The size of compiled code

The code of a query grows with the number of its nodes, and its blocks nest as its levels do:

* `Stmt.countAll`, `Stmt.nestingAll`: the number of statements in a block, and how many of them
  stand inside each other;
* `Stmt.execAllWithin`, `Stmt.stepsAllWithin`: running and listing code with a limit on the number
  of statements that are open at a time. A limit that the nesting does not exceed is not noticed;
* `Query.Compact`: the code of a query costs no more than a number of nodes and levels allow for,
  with one lemma for each construct;
* `Procedure.compact`: so it is for compiled procedures. Since a tree that compiles has no more than
  `maxDepth` levels, one limit does for all of them.
-/

namespace PathQuery

/-! ## Counting statements -/

namespace Stmt

mutual

/-- The number of statements in a statement: itself and all statements in its blocks. -/
def count : Stmt → Nat
  | .branch _ yes no => countAll yes + countAll no + 1
  | .forEach _ _ body => countAll body + 1
  | .assign _ _ | .push _ _ | .extend _ _ | .insert _ _ _ => 1

/-- The number of statements in a block, those of the blocks in it included. -/
def countAll : List Stmt → Nat
  | [] => 0
  | stmt :: stmts => stmt.count + countAll stmts

end

mutual

/-- How many statements stand inside each other in a statement, itself included. -/
def nesting : Stmt → Nat
  | .branch _ yes no => max (nestingAll yes) (nestingAll no) + 1
  | .forEach _ _ body => nestingAll body + 1
  | .assign _ _ | .push _ _ | .extend _ _ | .insert _ _ _ => 1

/-- How many statements stand inside each other in a block. -/
def nestingAll : List Stmt → Nat
  | [] => 0
  | stmt :: stmts => max stmt.nesting (nestingAll stmts)

end

theorem countAll_append (first second : List Stmt) :
    countAll (first ++ second) = countAll first + countAll second := by
  induction first with
  | nil => simp [countAll]
  | cons stmt stmts ih => simp only [List.cons_append, countAll, ih, Nat.add_assoc]

theorem nestingAll_append (first second : List Stmt) :
    nestingAll (first ++ second) = max (nestingAll first) (nestingAll second) := by
  induction first with
  | nil => simp [nestingAll]
  | cons stmt stmts ih => simp only [List.cons_append, nestingAll, ih, Nat.max_assoc]

theorem nestingAll_le_iff {block : List Stmt} {depth : Nat} :
    nestingAll block ≤ depth ↔ ∀ stmt ∈ block, stmt.nesting ≤ depth := by
  induction block with
  | nil => simp [nestingAll]
  | cons stmt stmts ih => rw [nestingAll, Nat.max_le, ih, List.forall_mem_cons]

/-! ## Running within a limit -/

section

variable {σ : Type}

/-- Goes on where a run ended, if it did not come to its limit or stop at an error. -/
def goOn (outcome : Option (Outcome σ)) (next : Frame → σ → Option (Outcome σ)) :
    Option (Outcome σ) :=
  outcome.bind fun outcome =>
    match outcome.error with
    | none => next outcome.frame outcome.state
    | some _ => some outcome

/-- The rounds of a loop, as long as none of them comes to the limit. -/
def loopWithin (body : Frame → σ → Option (Outcome σ)) (item : Slot) :
    List Value → Frame → σ → Option (Outcome σ)
  | [], frame, s => some ⟨frame, s, none⟩
  | value :: values, frame, s => goOn (body (frame.set item value) s) (loopWithin body item values)

mutual

/-- Runs a statement with room for no more than `depth` statements that run inside each other. There
is no outcome if that is not enough. -/
def execWithin (host : Host σ) : Nat → Stmt → Frame → σ → Option (Outcome σ)
  | 0, _, _, _ => none
  | depth + 1, .branch test yes no, frame, s =>
    if test.holds frame then execAllWithin host depth yes frame s
    else execAllWithin host depth no frame s
  | depth + 1, .forEach item source body, frame, s =>
    loopWithin (fun frame s => execAllWithin host depth body frame s) item
      (frame.get source).elements frame s
  | _ + 1, stmt, frame, s => some (stmt.exec host frame s)

/-- Runs the statements of a block, with room for no more than `depth` statements that run inside
each other. -/
def execAllWithin (host : Host σ) : Nat → List Stmt → Frame → σ → Option (Outcome σ)
  | _, [], frame, s => some ⟨frame, s, none⟩
  | depth, stmt :: stmts, frame, s =>
    goOn (execWithin host depth stmt frame s) fun frame s => execAllWithin host depth stmts frame s

end

theorem goOn_some (outcome : Outcome σ) (next : Frame → σ → Outcome σ) :
    goOn (some outcome) (fun frame s => some (next frame s)) = some (outcome.andThen next) := by
  rcases outcome with ⟨frame, s, _ | e⟩ <;> rfl

theorem loopWithin_some (body : Frame → σ → Outcome σ) (item : Slot) (values : List Value)
    (frame : Frame) (s : σ) :
    loopWithin (fun frame s => some (body frame s)) item values frame s =
      some (loop body item values frame s) := by
  induction values generalizing frame s with
  | nil => rfl
  | cons value values ih =>
    rw [loopWithin, loop, ← goOn_some]
    exact congrArg _ (funext fun frame => funext fun s => ih frame s)

theorem execAllWithin_of {host : Host σ} {depth : Nat} {block : List Stmt}
    (h : ∀ stmt ∈ block, ∀ frame s,
      execWithin host depth stmt frame s = some (stmt.exec host frame s)) (frame : Frame) (s : σ) :
    execAllWithin host depth block frame s = some (execAll host block frame s) := by
  induction block generalizing frame s with
  | nil => simp only [execAllWithin, execAll]
  | cons stmt stmts ih =>
    obtain ⟨hstmt, hstmts⟩ := List.forall_mem_cons.1 h
    simp only [execAllWithin, hstmt, ih hstmts, goOn_some, execAll]

/-- A statement that does not nest deeper than the limit runs as without one. -/
theorem execWithin_eq {host : Host σ} {stmt : Stmt} {depth : Nat} (h : stmt.nesting ≤ depth)
    (frame : Frame) (s : σ) :
    execWithin host depth stmt frame s = some (stmt.exec host frame s) := by
  induction stmt generalizing depth frame s with
  | assign _ _ | push _ _ | extend _ _ | insert _ _ _ =>
    cases depth with
    | zero => cases h
    | succ depth => simp only [execWithin]
  | branch test yes no ihy ihn =>
    cases depth with
    | zero => cases h
    | succ depth =>
      rw [nesting, Nat.succ_le_succ_iff, Nat.max_le, nestingAll_le_iff, nestingAll_le_iff] at h
      rw [execWithin, exec, execAllWithin_of fun stmt hm => ihy stmt hm (h.1 stmt hm),
        execAllWithin_of fun stmt hm => ihn stmt hm (h.2 stmt hm)]
      exact (apply_ite some ..).symm
  | forEach item source body ih =>
    cases depth with
    | zero => cases h
    | succ depth =>
      rw [nesting, Nat.succ_le_succ_iff, nestingAll_le_iff] at h
      simp only [execWithin, exec, execAllWithin_of fun stmt hm => ih stmt hm (h stmt hm),
        loopWithin_some]

theorem execAllWithin_eq {host : Host σ} {block : List Stmt} {depth : Nat}
    (h : nestingAll block ≤ depth) (frame : Frame) (s : σ) :
    execAllWithin host depth block frame s = some (execAll host block frame s) :=
  execAllWithin_of (fun stmt hm => execWithin_eq (nestingAll_le_iff.1 h stmt hm)) frame s

end

/-! ## Listing within a limit -/

open Emitter (Step)

mutual

/-- The lines of a statement, with room for no more than `depth` statements inside each other. There
are none if that is not enough. -/
def stepsWithin (slots : SlotNames) : Nat → Stmt → Option (List Step)
  | 0, _ => none
  | depth + 1, .branch test yes no => do
    let yesSteps ← stepsAllWithin slots depth yes
    let noSteps ← stepsAllWithin slots depth no
    return .emit ("if " ++ test.listing slots ++ " \x7b") :: .indent :: yesSteps ++ .outdent ::
      (if no.isEmpty then [] else .emit "\x7d else \x7b" :: .indent :: noSteps ++ [.outdent]) ++
      [.emit "\x7d"]
  | depth + 1, .forEach item source body => do
    let bodySteps ← stepsAllWithin slots depth body
    return .emit ("for " ++ slots.name item ++ " in iterate(" ++ slots.name source ++ ") \x7b") ::
      .indent :: bodySteps ++ [.outdent, .emit "\x7d"]
  | _ + 1, stmt => some (stmt.steps slots)

/-- The lines of a block, with room for no more than `depth` statements inside each other. -/
def stepsAllWithin (slots : SlotNames) : Nat → List Stmt → Option (List Step)
  | _, [] => some []
  | depth, stmt :: stmts => do
    return (← stepsWithin slots depth stmt) ++ (← stepsAllWithin slots depth stmts)

end

theorem stepsAllWithin_of {slots : SlotNames} {depth : Nat} {block : List Stmt}
    (h : ∀ stmt ∈ block, stepsWithin slots depth stmt = some (stmt.steps slots)) :
    stepsAllWithin slots depth block = some (stepsAll slots block) := by
  induction block with
  | nil => simp only [stepsAllWithin, stepsAll]
  | cons stmt stmts ih =>
    obtain ⟨hstmt, hstmts⟩ := List.forall_mem_cons.1 h
    rw [stepsAllWithin, hstmt, ih hstmts, stepsAll]
    rfl

/-- A statement that does not nest deeper than the limit is listed as without one. -/
theorem stepsWithin_eq {slots : SlotNames} {stmt : Stmt} {depth : Nat} (h : stmt.nesting ≤ depth) :
    stepsWithin slots depth stmt = some (stmt.steps slots) := by
  induction stmt generalizing depth with
  | assign _ _ | push _ _ | extend _ _ | insert _ _ _ =>
    cases depth with
    | zero => cases h
    | succ depth => simp only [stepsWithin]
  | branch test yes no ihy ihn =>
    cases depth with
    | zero => cases h
    | succ depth =>
      rw [nesting, Nat.succ_le_succ_iff, Nat.max_le, nestingAll_le_iff, nestingAll_le_iff] at h
      rw [stepsWithin, stepsAllWithin_of fun stmt hm => ihy stmt hm (h.1 stmt hm),
        stepsAllWithin_of fun stmt hm => ihn stmt hm (h.2 stmt hm)]
      cases no with
      | nil => rfl
      | cons stmt stmts => rfl
  | forEach item source body ih =>
    cases depth with
    | zero => cases h
    | succ depth =>
      rw [nesting, Nat.succ_le_succ_iff, nestingAll_le_iff] at h
      rw [stepsWithin, stepsAllWithin_of fun stmt hm => ih stmt hm (h stmt hm)]
      rfl

theorem stepsAllWithin_eq {slots : SlotNames} {block : List Stmt} {depth : Nat}
    (h : nestingAll block ≤ depth) :
    stepsAllWithin slots depth block = some (stepsAll slots block) :=
  stepsAllWithin_of fun stmt hm => stepsWithin_eq (nestingAll_le_iff.1 h stmt hm)

end Stmt

/-! ## Counting nodes -/

namespace Node

mutual

/-- The number of nodes in a node, itself included, that stand outside of what expression references
refer to. -/
def nodes : Node → Nat
  | ⟨kind, _, children, _⟩ => (if kind = .expressionReference then 0 else nodesAll children) + 1

/-- The number of nodes in several nodes. -/
def nodesAll : List Node → Nat
  | [] => 0
  | node :: nodes => node.nodes + nodesAll nodes

end

mutual

/-- The number of levels that compiling a node goes through: that of the node and those of its
operands. The entries of a multi-select hash are no level. -/
def levels : Node → Nat
  | ⟨kind, _, children, _⟩ =>
    (match kind with
      | .literal | .field | .index | .slice | .current | .expressionReference => 0
      | .multiSelectHash => entryLevels children
      | _ => levelsAll children) + 1

/-- The greatest number of levels of several nodes. -/
def levelsAll : List Node → Nat
  | [] => 0
  | node :: nodes => max node.levels (levelsAll nodes)

/-- The greatest number of levels below the entries of a multi-select hash. -/
def entryLevels : List Node → Nat
  | [] => 0
  | ⟨_, _, children, _⟩ :: pairs => max (levelsAll children) (entryLevels pairs)

end

theorem nodes_pos (node : Node) : 0 < node.nodes := by
  obtain ⟨kind, value, children, source⟩ := node
  exact Nat.succ_pos _

theorem levels_pos (node : Node) : 0 < node.levels := by
  obtain ⟨kind, value, children, source⟩ := node
  exact Nat.succ_pos _

end Node

/-! ## The code of a query -/

namespace Query

open Stmt Node

/-- Wherever the code of the query is placed, it costs no more than `size` nodes on `levels` levels
allow for. The code of a part stands between three statements at most, which count here as well. -/
structure Compact (size levels : Nat) (query : Query) : Prop where
  count : ∀ k n, countAll ((query.number k).lower n) + 3 ≤ 14 * size
  nesting : ∀ k n, nestingAll ((query.number k).lower n) ≤ 2 * levels + 1

theorem Compact.mono {query : Query} {a b l m : Nat} (h : query.Compact a l) (ha : a ≤ b)
    (hl : l ≤ m) : query.Compact b m where
  count k n := (h.count k n).trans (by omega)
  nesting k n := (h.nesting k n).trans (by omega)

/-! ### Pieces of code -/

theorem countAll_lowerIndex_le (position : Slot) (i : Int) :
    countAll (lowerIndex position i) ≤ 2 := by
  by_cases hi : i < 0 <;> simp [lowerIndex, hi, countAll, Stmt.count]

theorem nestingAll_lowerIndex (position : Slot) (i : Int) :
    nestingAll (lowerIndex position i) = 1 := by
  by_cases hi : i < 0 <;> simp [lowerIndex, hi, nestingAll, Stmt.nesting]

theorem count_lowerFlatten (flattened element : Slot) :
    (lowerFlatten flattened element).count = 9 :=
  rfl

theorem nesting_lowerFlatten (flattened element : Slot) :
    (lowerFlatten flattened element).nesting = 5 :=
  rfl

theorem count_lowerProjection (source : SourceKind) (base collected element : Slot)
    (body : List Stmt) :
    (lowerProjection source base collected element body).count = countAll body + 9 := by
  simp only [lowerProjection, setNull, Stmt.copy, Stmt.when, Stmt.count, countAll, countAll_append,
    List.cons_append]
  omega

theorem nesting_lowerProjection (source : SourceKind) (base collected element : Slot)
    (body : List Stmt) :
    (lowerProjection source base collected element body).nesting = max (nestingAll body) 2 + 2 := by
  simp only [lowerProjection, setNull, Stmt.copy, Stmt.when, Stmt.nesting, nestingAll,
    nestingAll_append, List.cons_append]
  omega

theorem count_store (target : Slot) (member : Member) : (member.store target).count = 1 := by
  obtain ⟨_ | key, query⟩ := member <;> rfl

theorem nesting_store (target : Slot) (member : Member) : (member.store target).nesting = 1 := by
  obtain ⟨_ | key, query⟩ := member <;> rfl

theorem countAll_lowerSide (saved savedCurrent side : Slot) :
    countAll (lowerSide saved savedCurrent side) = 3 :=
  rfl

theorem nestingAll_lowerSide (saved savedCurrent side : Slot) :
    nestingAll (lowerSide saved savedCurrent side) = 1 :=
  rfl

theorem countAll_lowerComparison (op : Comparator) (saved savedCurrent left right result : Slot) :
    countAll (lowerComparison op saved savedCurrent left right result) = 6 :=
  rfl

theorem nestingAll_lowerComparison (op : Comparator)
    (saved savedCurrent left right result : Slot) :
    nestingAll (lowerComparison op saved savedCurrent left right result) = 2 :=
  rfl

/-- The code of several queries costs what their nodes allow for: the three statements around each
of them were counted with it. -/
theorem compact_lowerEach {nodes : List Node} {members : List Member} {l : Nat}
    (h : List.Forall₂ (fun node member => member.query.Compact node.nodes l) nodes members)
    (base baseCurrent target : Slot) (k n : Nat) :
    countAll (lowerEach base baseCurrent target n (numberEach k members)) ≤ 14 * nodesAll nodes ∧
      nestingAll (lowerEach base baseCurrent target n (numberEach k members)) ≤ 2 * l + 1 := by
  induction h generalizing k n with
  | nil => exact ⟨Nat.zero_le _, Nat.zero_le _⟩
  | @cons node member nodes members hm _ ih =>
    obtain ⟨hcount, hnesting⟩ := ih (k + member.query.references)
      (n + (member.query.number k).width)
    have hc := hm.count k n
    have hn := hm.nesting k n
    simp only [numberEach, lowerEach, List.cons_append, Stmt.copy, countAll, countAll_append,
      Stmt.count, count_store, nestingAll, nestingAll_append, Stmt.nesting, nesting_store, nodesAll]
    omega

theorem compact_items {nodes : List Node} {items : List Query}
    (h : List.Forall₂ (fun node item => item.Compact node.nodes node.levels) nodes items) :
    List.Forall₂ (fun node member => member.query.Compact node.nodes (levelsAll nodes)) nodes
      (items.map Member.ofItem) := by
  induction h with
  | nil => exact .nil
  | cons hi _ ih =>
    exact .cons (hi.mono le_rfl (le_max_left _ _))
      (ih.imp fun _ _ hm => hm.mono le_rfl (le_max_right _ _))

theorem compact_entries {nodes : List Node} {entries : List (String × Query)}
    (h : List.Forall₂ (EntryOf fun node query => query.Compact node.nodes node.levels) nodes
      entries) :
    List.Forall₂ (fun node member => member.query.Compact node.nodes (entryLevels nodes)) nodes
      (entries.map Member.ofEntry) := by
  induction h with
  | nil => exact .nil
  | @cons _ entry _ _ he _ ih =>
    obtain ⟨child, source, rfl, hchild⟩ := he
    have hquery : entry.2.Compact child.nodes child.levels := hchild
    refine .cons (hquery.mono ?_ ?_) (ih.imp fun _ _ hm => hm.mono le_rfl (le_max_right _ _))
    · simp [Node.nodes, nodesAll]
    · simp [entryLevels, levelsAll]

/-! ### Constructs -/

section

attribute [local simp] number lower countAll nestingAll Stmt.count Stmt.nesting countAll_append
  nestingAll_append Stmt.copy Stmt.when setNull

theorem compact_literal (value : Value) : (literal value).Compact 1 1 where
  count k n := by simp
  nesting k n := by simp

theorem compact_field (name : String) : (field name).Compact 1 1 where
  count k n := by simp
  nesting k n := by simp

theorem compact_index (i : Int) : (index i).Compact 1 1 where
  count k n := by
    have hc := countAll_lowerIndex_le ⟨n⟩ i
    simp only [number, lower, setNull, countAll, Stmt.count]
    omega
  nesting k n := by simp [nestingAll_lowerIndex]

theorem compact_slice (start stop step : Option Int) : (slice start stop step).Compact 1 1 where
  count k n := by simp [lowerSlice]
  nesting k n := by simp [lowerSlice]

theorem compact_current : current.Compact 1 1 where
  count k n := by simp
  nesting k n := by simp

theorem compact_reference (site : Nat) (node : Node) : (reference site node).Compact 1 1 where
  count k n := by simp
  nesting k n := by simp

end

variable {query left right : Query} {a b l m : Nat}

theorem compact_not (h : query.Compact a l) : (not query).Compact (a + 1) (l + 1) where
  count k n := by
    have hc := h.count k n
    simp only [number, lower, countAll_append, countAll, Stmt.count]
    omega
  nesting k n := by
    have hn := h.nesting k n
    simp only [number, lower, nestingAll_append, nestingAll, Stmt.nesting]
    omega

theorem compact_flatten (h : query.Compact a l) (hl : 0 < l) :
    (flatten query).Compact (a + 1) (l + 1) where
  count k n := by
    have hc := h.count k n
    simp only [number, lower, countAll_append, countAll, count_lowerFlatten]
    omega
  nesting k n := by
    have hn := h.nesting k n
    simp only [number, lower, nestingAll_append, nestingAll, nesting_lowerFlatten]
    omega

theorem compact_subexpression (hl : left.Compact a l) (hr : right.Compact b m) :
    (subexpression left right).Compact (a + b + 1) (max l m + 1) where
  count k n := by
    have hcl := hl.count k n
    have hcr := hr.count (k + left.references) (n + (left.number k).width)
    simp only [number, lower, Stmt.when, countAll_append, countAll, Stmt.count]
    omega
  nesting k n := by
    have hnl := hl.nesting k n
    have hnr := hr.nesting (k + left.references) (n + (left.number k).width)
    simp only [number, lower, Stmt.when, nestingAll_append, nestingAll, Stmt.nesting]
    omega

theorem compact_pipe (hl : left.Compact a l) (hr : right.Compact b m) :
    (pipe left right).Compact (a + b + 1) (max l m + 1) where
  count k n := by
    have hcl := hl.count k n
    have hcr := hr.count (k + left.references) (n + (left.number k).width)
    simp only [number, lower, Stmt.copy, countAll_append, countAll, Stmt.count]
    omega
  nesting k n := by
    have hnl := hl.nesting k n
    have hnr := hr.nesting (k + left.references) (n + (left.number k).width)
    simp only [number, lower, Stmt.copy, nestingAll_append, nestingAll, Stmt.nesting]
    omega

theorem compact_shortCircuit {test : Test} (h : ShortCircuit query left right test)
    (hl : left.Compact a l) (hr : right.Compact b m) :
    query.Compact (a + b + 1) (max l m + 1) where
  count k n := by
    have hcl := hl.count k (n + 1)
    have hcr := hr.count (k + left.references) (n + 1 + (left.number k).width)
    simp only [(h.number k).lower_eq, lowerShortCircuit, Stmt.copy, Stmt.when, List.cons_append,
      countAll_append, countAll, Stmt.count]
    omega
  nesting k n := by
    have hnl := hl.nesting k (n + 1)
    have hnr := hr.nesting (k + left.references) (n + 1 + (left.number k).width)
    simp only [(h.number k).lower_eq, lowerShortCircuit, Stmt.copy, Stmt.when, List.cons_append,
      nestingAll_append, nestingAll, Stmt.nesting]
    omega

theorem compact_projection (source : SourceKind) (hl : left.Compact a l) (hr : right.Compact b m)
    (hm : 0 < m) : (projection source left right).Compact (a + b + 1) (max l m + 1) where
  count k n := by
    have hcl := hl.count k n
    have hcr := hr.count (k + left.references) (n + (left.number k).width + 3)
    simp only [number, lower, countAll_append, countAll, count_lowerProjection]
    omega
  nesting k n := by
    have hnl := hl.nesting k n
    have hnr := hr.nesting (k + left.references) (n + (left.number k).width + 3)
    simp only [number, lower, nestingAll_append, nestingAll, nesting_lowerProjection]
    omega

theorem compact_comparator (op : Comparator) (hl : left.Compact a l) (hr : right.Compact b m) :
    (comparator op left right).Compact (a + b + 1) (max l m + 1) where
  count k n := by
    have hcl := hl.count k (n + 5)
    have hcr := hr.count (k + left.references) (n + 5 + (left.number k).width)
    simp only [number, lower, Stmt.copy, List.cons_append, countAll_append, countAll, Stmt.count,
      countAll_lowerSide, countAll_lowerComparison]
    omega
  nesting k n := by
    have hnl := hl.nesting k (n + 5)
    have hnr := hr.nesting (k + left.references) (n + 5 + (left.number k).width)
    simp only [number, lower, Stmt.copy, List.cons_append, nestingAll_append, nestingAll,
      Stmt.nesting, nestingAll_lowerSide, nestingAll_lowerComparison]
    omega

theorem compact_list {nodes : List Node} {items : List Query}
    (h : List.Forall₂ (fun node item => item.Compact node.nodes node.levels) nodes items) :
    (list items).Compact (nodesAll nodes + 1) (levelsAll nodes + 1) where
  count k n := by
    have hc := (compact_lowerEach (compact_items h) ⟨n⟩ ⟨n + 1⟩ ⟨n + 2⟩ k (n + 3)).1
    simp only [number, lower, lowerItems_eq, map_ofItem_numberAll, Stmt.copy, Stmt.when,
      List.cons_append, countAll_append, countAll, Stmt.count]
    omega
  nesting k n := by
    have hn := (compact_lowerEach (compact_items h) ⟨n⟩ ⟨n + 1⟩ ⟨n + 2⟩ k (n + 3)).2
    simp only [number, lower, lowerItems_eq, map_ofItem_numberAll, Stmt.copy, Stmt.when,
      List.cons_append, nestingAll_append, nestingAll, Stmt.nesting]
    omega

theorem compact_hash {nodes : List Node} {entries : List (String × Query)}
    (h : List.Forall₂ (EntryOf fun node query => query.Compact node.nodes node.levels) nodes
      entries) : (hash entries).Compact (nodesAll nodes + 1) (entryLevels nodes + 1) where
  count k n := by
    have hc := (compact_lowerEach (compact_entries h) ⟨n⟩ ⟨n + 1⟩ ⟨n + 2⟩ k (n + 3)).1
    simp only [number, lower, lowerEntries_eq, map_ofEntry_numberEntries, Stmt.copy, Stmt.when,
      List.cons_append, countAll_append, countAll, Stmt.count]
    omega
  nesting k n := by
    have hn := (compact_lowerEach (compact_entries h) ⟨n⟩ ⟨n + 1⟩ ⟨n + 2⟩ k (n + 3)).2
    simp only [number, lower, lowerEntries_eq, map_ofEntry_numberEntries, Stmt.copy, Stmt.when,
      List.cons_append, nestingAll_append, nestingAll, Stmt.nesting]
    omega

theorem compact_call (name : String) {nodes : List Node} {args : List Query}
    (h : List.Forall₂ (fun node arg => arg.Compact node.nodes node.levels) nodes args) :
    (call name args).Compact (nodesAll nodes + 1) (levelsAll nodes + 1) where
  count k n := by
    have hc := (compact_lowerEach (compact_items h) ⟨n⟩ ⟨n + 1⟩ ⟨n + 2⟩ k (n + 3)).1
    simp only [number, lower, lowerItems_eq, map_ofItem_numberAll, Stmt.copy, List.cons_append,
      countAll_append, countAll, Stmt.count]
    omega
  nesting k n := by
    have hn := (compact_lowerEach (compact_items h) ⟨n⟩ ⟨n + 1⟩ ⟨n + 2⟩ k (n + 3)).2
    simp only [number, lower, lowerItems_eq, map_ofItem_numberAll, Stmt.copy, List.cons_append,
      nestingAll_append, nestingAll, Stmt.nesting]
    omega

/-! ### Checked nodes -/

/-- The code of a checked node costs what its nodes and levels allow for. -/
theorem compact_of_check {depth : Nat} {node : Node} {query : Query}
    (h : check depth node = .ok query) : query.Compact node.nodes node.levels := by
  refine check_induction (motive := fun _ node query => query.Compact node.nodes node.levels)
    ?literal ?field ?index ?slice ?current ?reference ?not ?flatten ?pair ?subexpression ?pipe ?or
    ?and ?projection ?comparator ?list ?hash ?call h
  case literal =>
    intro _ v _ _ _
    exact (compact_literal v).mono (nodes_pos _) (levels_pos _)
  case field =>
    intro _ name _ _ _
    exact (compact_field name).mono (nodes_pos _) (levels_pos _)
  case index =>
    intro _ i _ _ _
    exact (compact_index i).mono (nodes_pos _) (levels_pos _)
  case slice =>
    intro _ start stop step _ _ _
    exact (compact_slice start stop step).mono (nodes_pos _) (levels_pos _)
  case current =>
    intros
    exact compact_current.mono (nodes_pos _) (levels_pos _)
  case reference =>
    intros
    exact (compact_reference 0 _).mono (nodes_pos _) (levels_pos _)
  case not =>
    intro _ _ _ _ _ _ hq
    exact (compact_not hq).mono (by simp [nodes, nodesAll]) (by simp [levels, levelsAll])
  case flatten =>
    intro _ _ child _ _ _ hq
    exact (compact_flatten hq (levels_pos child)).mono (by simp [nodes, nodesAll])
      (by simp [levels, levelsAll])
  case pair =>
    intro _ _ _ _ _ _ hq
    exact hq.mono (by simp [nodes, nodesAll]) (by simp [levels, levelsAll])
  case subexpression =>
    rintro _ kind _ _ _ _ _ _ _ (rfl | rfl) hl hr
    · exact (compact_subexpression hl hr).mono (by simp [nodes, nodesAll])
        (by simp [levels, levelsAll])
    · exact (compact_subexpression hl hr).mono (by simp [nodes, nodesAll])
        (by simp [levels, levelsAll])
  case pipe =>
    intro _ _ _ _ _ _ _ _ hl hr
    exact (compact_pipe hl hr).mono (by simp [nodes, nodesAll]) (by simp [levels, levelsAll])
  case or =>
    intro _ _ _ _ _ _ _ _ hl hr
    exact (compact_shortCircuit (.or _ _) hl hr).mono (by simp [nodes, nodesAll])
      (by simp [levels, levelsAll])
  case and =>
    intro _ _ _ _ _ _ _ _ hl hr
    exact (compact_shortCircuit (.and _ _) hl hr).mono (by simp [nodes, nodesAll])
      (by simp [levels, levelsAll])
  case projection =>
    intro _ _ _ right _ _ _ _ hl hr
    exact (compact_projection _ hl hr (levels_pos right)).mono (by simp [nodes, nodesAll])
      (by simp [levels, levelsAll])
  case comparator =>
    intro _ _ op _ _ _ _ _ _ _ hl hr
    exact (compact_comparator op hl hr).mono (by simp [nodes, nodesAll])
      (by simp [levels, levelsAll])
  case list =>
    intro _ _ _ _ _ _ hitems
    exact (compact_list hitems).mono (by simp [nodes]) (by simp [levels])
  case hash =>
    intro _ _ _ _ _ _ hentries
    exact (compact_hash hentries).mono (by simp [nodes]) (by simp [levels])
  case call =>
    intro _ name _ _ _ _ hargs
    exact (compact_call name hargs).mono (by simp [nodes]) (by simp [levels])

theorem levelsAll_le_of_forall₂ {queries : List Query} {nodes : List Node} {n : Nat}
    (h : List.Forall₂ (fun node (_ : Query) => node.levels ≤ n) nodes queries) :
    levelsAll nodes ≤ n := by
  induction h with
  | nil => exact Nat.zero_le n
  | cons hn _ ih => exact Nat.max_le.2 ⟨hn, ih⟩

theorem entryLevels_le_of_forall₂ {entries : List (String × Query)} {nodes : List Node} {n : Nat}
    (h : List.Forall₂ (EntryOf fun node _ => node.levels ≤ n) nodes entries) :
    entryLevels nodes ≤ n := by
  induction h with
  | nil => exact Nat.zero_le n
  | cons he _ ih =>
    obtain ⟨child, source, rfl, hchild⟩ := he
    exact Nat.max_le.2 ⟨Nat.max_le.2 ⟨hchild, Nat.zero_le n⟩, ih⟩

/-- A checked node ends above the level that the check does not go to. -/
theorem levels_le_of_check {depth : Nat} {node : Node} {query : Query}
    (h : check depth node = .ok query) : node.levels ≤ maxDepth - depth := by
  refine check_induction (motive := fun depth node _ => node.levels ≤ maxDepth - depth)
    ?literal ?field ?index ?slice ?current ?reference ?not ?flatten ?pair ?subexpression ?pipe ?or
    ?and ?projection ?comparator ?list ?hash ?call h
  case literal | field | index | slice | current | reference =>
    intros
    simp only [levels]
    omega
  case not | flatten | pair =>
    intros
    simp only [levels, levelsAll]
    omega
  case subexpression =>
    rintro _ kind _ _ _ _ _ _ _ (rfl | rfl) hl hr
    · simp only [levels, levelsAll]
      omega
    · simp only [levels, levelsAll]
      omega
  case pipe | or | and | projection | comparator =>
    intros
    simp only [levels, levelsAll]
    omega
  case list | call =>
    intro depth _ _ _ _ hd hparts
    have hlevels := levelsAll_le_of_forall₂ hparts
    simp only [levels]
    omega
  case hash =>
    intro depth _ _ _ _ hd hparts
    have hlevels := entryLevels_le_of_forall₂ hparts
    simp only [levels]
    omega

end Query

/-! ## Compiled procedures -/

namespace Procedure

open Stmt

/-- A compiled procedure has at most 14 statements for each node of its tree outside of what
expression references refer to, and one more. Its statements stand inside each other at most twice
as often as the tree has levels, and once more. A tree that compiles has at most 256 levels, so that
running a procedure, or listing it, never has more than 513 statements open at a time. -/
theorem compact {node : Node} {options : Options} {first : Nat} {procedure : Procedure}
    (h : compile node options first = .ok procedure) :
    countAll procedure.body ≤ 14 * node.nodes + 1 ∧
      nestingAll procedure.body ≤ 2 * node.levels + 1 ∧ node.levels ≤ 256 ∧
      (∀ (σ : Type) (host : Host σ) (frame : Frame) (s : σ),
        execAllWithin host 513 procedure.body frame s =
          some (execAll host procedure.body frame s)) ∧
      stepsAllWithin procedure.slots 513 procedure.body =
        some (stepsAll procedure.slots procedure.body) := by
  obtain ⟨query, hq, rfl⟩ := compile_eq_ok h
  obtain ⟨checked, hc, rfl⟩ := map_eq_ok hq
  have hcompact := Query.compact_of_check hc
  have hcount := hcompact.count first 2
  have hnesting := hcompact.nesting first 2
  have hlevels : node.levels ≤ 256 := Query.levels_le_of_check hc
  have hbody : nestingAll (ofQuery options (checked.number first)).body ≤ 2 * node.levels + 1 := by
    simp only [ofQuery, Stmt.copy, nestingAll, Stmt.nesting]
    omega
  refine ⟨?_, hbody, hlevels, fun σ host frame s => ?_, ?_⟩
  · simp only [ofQuery, Stmt.copy, countAll, Stmt.count]
    omega
  · exact execAllWithin_eq (hbody.trans (by omega)) frame s
  · exact stepsAllWithin_eq (hbody.trans (by omega))

/-- A flatten in a projection, whose blocks nest as deep as three levels allow. -/
theorem compact_nested :
    let node : Node := .projection none .current (.flatten .current)
    let query : Query := .projection .array .current (.flatten .current)
    let body := (ofQuery {} query).body
    let frame := Frame.start 7 (.array [.array [.null]])
    compile node {} = .ok (ofQuery {} query) ∧ node.nodes = 4 ∧ node.levels = 3 ∧
      countAll body = 19 ∧ countAll body ≤ 14 * 4 + 1 ∧
      nestingAll body = 2 * 3 + 1 ∧ nestingAll body ≤ 2 * 3 + 1 ∧
      execAllWithin .tracing 513 body frame [] = some (execAll .tracing body frame []) := by
  intro node query body frame
  have hc : compile node {} = .ok (ofQuery {} query) := by cbv
  obtain ⟨hcount, hnesting, -, hrun, -⟩ := compact hc
  exact ⟨hc, by decide, by decide, by decide, hcount, by decide, hnesting, hrun _ _ _ _⟩

end Procedure

end PathQuery
