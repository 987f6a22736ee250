import Mathlib
import PathQuery.Proofs.Hygiene

/-!
# Where the parts of a query stand in its code

The code of a query holds the code of its parts, in the block itself or in a branch or loop of it:

* `Stmt.Gap`: a block with a gap for other code, and `Gap.Reached`: a run of the block comes to the
  gap, with the frame that it finds there;
* `Query.Part`: a part of a query with the code around it. Filling the gap gives the code of the
  query (`Part.fill_eq`);
* `Query.Comes`: a run of a query's code comes to the code of a query inside it, at any depth and in
  any round of a loop. There is room for that code then (`Comes.room`), and whatever it comes to the
  whole run comes to (`Comes.visits`).
-/

namespace PathQuery

variable {σ : Type}

namespace Stmt

/-- A block with a gap for other code: between two of its statements, or in a branch or loop. -/
inductive Gap where
  | here (before after : List Stmt)
  | yes (before : List Stmt) (test : Test) (inner : Gap) (no after : List Stmt)
  | no (before : List Stmt) (test : Test) (yes : List Stmt) (inner : Gap) (after : List Stmt)
  | round (before : List Stmt) (item source : Slot) (inner : Gap) (after : List Stmt)

namespace Gap

/-- The block with code in its gap. -/
def fill (code : List Stmt) : Gap → List Stmt
  | .here before after => before ++ (code ++ after)
  | .yes before test inner other after => before ++ .branch test (inner.fill code) other :: after
  | .no before test other inner after => before ++ .branch test other (inner.fill code) :: after
  | .round before item source inner after =>
    before ++ .forEach item source (inner.fill code) :: after

/-- The gap with more code around it. -/
def widen (before after : List Stmt) : Gap → Gap
  | .here first last => .here (before ++ first) (last ++ after)
  | .yes first test inner other last => .yes (before ++ first) test inner other (last ++ after)
  | .no first test other inner last => .no (before ++ first) test other inner (last ++ after)
  | .round first item source inner last =>
    .round (before ++ first) item source inner (last ++ after)

theorem fill_widen (before after code : List Stmt) (gap : Gap) :
    (gap.widen before after).fill code = before ++ (gap.fill code ++ after) := by
  cases gap <;> simp [widen, fill]

/-- The gap of a block that stands in the gap of another. -/
def comp (inside : Gap) : Gap → Gap
  | .here before after => inside.widen before after
  | .yes before test inner other after => .yes before test (comp inside inner) other after
  | .no before test other inner after => .no before test other (comp inside inner) after
  | .round before item source inner after => .round before item source (comp inside inner) after

theorem fill_comp (inside gap : Gap) (code : List Stmt) :
    (inside.comp gap).fill code = gap.fill (inside.fill code) := by
  induction gap with
  | here before after => exact fill_widen before after code inside
  | yes _ _ _ _ _ ih | no _ _ _ _ _ ih | round _ _ _ _ _ ih => rw [comp, fill, fill, ih]

/-- A run of the block, with code in its gap, comes to the gap and finds a frame there. -/
inductive Reached (host : Host σ) (code : List Stmt) : Gap → Frame → σ → Frame → σ → Prop
  | here {before after : List Stmt} {f g : Frame} {s t : σ} :
    execAll host before f s = ⟨g, t, none⟩ → Reached host code (.here before after) f s g t
  | yes {before other after : List Stmt} {test : Test} {inner : Gap} {f g h : Frame} {s t u : σ} :
    execAll host before f s = ⟨g, t, none⟩ → test.holds g = true →
    Reached host code inner g t h u →
    Reached host code (.yes before test inner other after) f s h u
  | no {before other after : List Stmt} {test : Test} {inner : Gap} {f g h : Frame} {s t u : σ} :
    execAll host before f s = ⟨g, t, none⟩ → test.holds g = false →
    Reached host code inner g t h u →
    Reached host code (.no before test other inner after) f s h u
  /-- In the round of a loop for `value`, after the rounds for the elements before it. -/
  | round {before after : List Stmt} {item source : Slot} {inner : Gap} {f g g' h : Frame}
      {s t t' u : σ} {done others : List Value} {value : Value} :
    execAll host before f s = ⟨g, t, none⟩ →
    (g.get source).elements = done ++ value :: others →
    loop (fun frame s => execAll host (inner.fill code) frame s) item done g t = ⟨g', t', none⟩ →
    Reached host code inner (g'.set item value) t' h u →
    Reached host code (.round before item source inner after) f s h u

end Gap

section

variable {host : Host σ} {before rest : List Stmt} {f g : Frame} {s t : σ} {moment : Moment σ}

theorem size_of_execAll (h : execAll host before f s = ⟨g, t, none⟩) :
    g.slots.size = f.slots.size := by
  have hc := execAll_changedIn host before f s
  rw [h] at hc
  exact hc.size

/-- What the code behind a block comes to, the whole comes to. -/
theorem visits_append_right (h : execAll host before f s = ⟨g, t, none⟩)
    (hv : Visits host rest g t moment) : Visits host (before ++ rest) f s moment := by
  induction before generalizing f s with
  | nil =>
    cases h
    exact hv
  | cons stmt before ih =>
    rw [execAll] at h
    rcases hs : stmt.exec host f s with ⟨f', s', _ | e⟩
    · rw [hs] at h
      exact .later hs (ih h)
    · rw [hs] at h
      cases h

/-- What a block comes to, it comes to with code behind it. -/
theorem visits_append_left (hv : Visits host before f s moment) :
    Visits host (before ++ rest) f s moment := by
  induction hv with
  | here => exact .here
  | later he _ ih => exact .later he ih
  | yes ht hv _ => exact .yes ht hv
  | no ht hv _ => exact .no ht hv
  | round he hl hv _ => exact .round he hl hv

theorem Gap.Reached.size {code : List Stmt} {gap : Gap} (h : gap.Reached host code f s g t) :
    g.slots.size = f.slots.size := by
  induction h with
  | here he => exact size_of_execAll he
  | yes he _ _ ih | no he _ _ ih => exact ih.trans (size_of_execAll he)
  | @round before after item source inner f g g' h s t t' u done others value he _ hl _ ih =>
    have hc : Frame.ChangedIn (item :: slotsAll (inner.fill code)) g _ :=
      loop_changedIn (List.mem_cons_self ..)
        (fun frame s => (execAll_changedIn host _ frame s).mono (List.subset_cons_self ..)) done g t
    rw [hl] at hc
    rw [ih, Frame.size_set, hc.size, size_of_execAll he]

/-- What the code in a gap comes to, the whole block comes to. -/
theorem Gap.Reached.visits {code : List Stmt} {gap : Gap} (h : gap.Reached host code f s g t)
    (hv : Visits host code g t moment) : Visits host (gap.fill code) f s moment := by
  induction h with
  | here he => exact visits_append_right he (visits_append_left hv)
  | yes he ht _ ih => exact visits_append_right he (.yes ht (ih hv))
  | no he ht _ ih => exact visits_append_right he (.no ht (ih hv))
  | round he hd hl _ ih => exact visits_append_right he (.round hd hl (ih hv))

end

end Stmt

namespace Query

open Stmt

/-! ## The parts of a query -/

/-- The gap for the right side of a pipe. -/
def pipeGap (left : Query) (n : Nat) : Gap := .here (left.lower n ++ [.copy .current .value]) []

/-- The gap for the right side of a disjunction or conjunction. -/
def rightGap (left : Query) (n : Nat) (test : Test) : Gap :=
  .yes (.copy ⟨n⟩ .value :: left.lower (n + 1)) test (.here [.copy .value ⟨n⟩] []) [] []

/-- The gap for one of the queries whose answers are collected in slot `n + 2`, behind the code of
those before it. -/
def itemGap (n : Nat) (empty : Expr) (before after : List Stmt) : Gap :=
  .here (.copy ⟨n⟩ .value :: .copy ⟨n + 1⟩ .current :: .assign ⟨n + 2⟩ empty :: before ++
    [.copy .value ⟨n⟩, .copy .current ⟨n + 1⟩]) after

/-- `Part query n gap part m`: the code of a query whose temporaries start at slot `n` has a gap for
the code of one of its operands, whose temporaries start at slot `m`. -/
inductive Part : Query → Nat → Gap → Query → Nat → Prop
  | subexpressionLeft (left right : Query) (n : Nat) :
    Part (.subexpression left right) n
      (.here [] [.when (.not (.isNull .value)) (right.lower (n + left.width))]) left n
  | subexpressionRight (left right : Query) (n : Nat) :
    Part (.subexpression left right) n
      (.yes (left.lower n) (.not (.isNull .value)) (.here [] []) [] []) right (n + left.width)
  | pipeLeft (left right : Query) (n : Nat) :
    Part (.pipe left right) n
      (.here [] (.copy .current .value :: right.lower (n + left.width))) left n
  | pipeRight (left right : Query) (n : Nat) :
    Part (.pipe left right) n (pipeGap left n) right (n + left.width)
  | shortCircuitLeft {query left right : Query} {test : Test}
      (h : ShortCircuit query left right test) (n : Nat) :
    Part query n
      (.here [.copy ⟨n⟩ .value]
        [.when test (.copy .value ⟨n⟩ :: right.lower (n + 1 + left.width))])
      left (n + 1)
  | shortCircuitRight {query left right : Query} {test : Test}
      (h : ShortCircuit query left right test) (n : Nat) :
    Part query n (rightGap left n test) right (n + 1 + left.width)
  | not (query : Query) (n : Nat) :
    Part (.not query) n (.here [] [.assign .value (.not .value)]) query n
  | flatten (query : Query) (n : Nat) :
    Part (.flatten query) n
      (.here [] [lowerFlatten ⟨n + query.width⟩ ⟨n + query.width + 1⟩]) query n
  | projectionLeft (source : SourceKind) (left right : Query) (n : Nat) :
    Part (.projection source left right) n
      (.here [] [lowerProjection source ⟨n + left.width⟩ ⟨n + left.width + 1⟩
        ⟨n + left.width + 2⟩ (right.lower (n + left.width + 3))]) left n
  | projectionRight (source : SourceKind) (left right : Query) (n : Nat) :
    Part (.projection source left right) n
      (.no (left.lower n) (.not (guard source)) [setNull]
        (.round [.copy ⟨n + left.width⟩ .value, .assign ⟨n + left.width + 1⟩ (.list [])]
          ⟨n + left.width + 2⟩ ⟨n + left.width⟩
          (.here [.copy .value ⟨n + left.width + 2⟩]
            [.when (.not (.isNull .value)) [.push ⟨n + left.width + 1⟩ .value]])
          [.copy .value ⟨n + left.width + 1⟩]) [])
      right (n + left.width + 3)
  | comparatorLeft (op : Comparator) (left right : Query) (n : Nat) :
    Part (.comparator op left right) n
      (.here [.copy ⟨n⟩ .value, .copy ⟨n + 1⟩ .current]
        (lowerSide ⟨n⟩ ⟨n + 1⟩ ⟨n + 2⟩ ++ right.lower (n + 5 + left.width) ++
          lowerComparison op ⟨n⟩ ⟨n + 1⟩ ⟨n + 2⟩ ⟨n + 3⟩ ⟨n + 4⟩))
      left (n + 5)
  | comparatorRight (op : Comparator) (left right : Query) (n : Nat) :
    Part (.comparator op left right) n
      (.here (.copy ⟨n⟩ .value :: .copy ⟨n + 1⟩ .current :: left.lower (n + 5) ++
          lowerSide ⟨n⟩ ⟨n + 1⟩ ⟨n + 2⟩)
        (lowerComparison op ⟨n⟩ ⟨n + 1⟩ ⟨n + 2⟩ ⟨n + 3⟩ ⟨n + 4⟩))
      right (n + 5 + left.width)
  | item (before : List Query) (item : Query) (after : List Query) (n : Nat) :
    Part (.list (before ++ item :: after)) n
      (.yes [] (.not (.isNull .value))
        (itemGap n (.list []) (lowerItems ⟨n⟩ ⟨n + 1⟩ ⟨n + 2⟩ (n + 3) before)
          (.push ⟨n + 2⟩ .value ::
            lowerItems ⟨n⟩ ⟨n + 1⟩ ⟨n + 2⟩ (n + 3 + widthAll before + item.width) after ++
            [.copy .value ⟨n + 2⟩, .copy .current ⟨n + 1⟩])) [] [])
      item (n + 3 + widthAll before)
  | entry (before : List (String × Query)) (key : String) (item : Query)
      (after : List (String × Query)) (n : Nat) :
    Part (.hash (before ++ (key, item) :: after)) n
      (.yes [] (.not (.isNull .value))
        (itemGap n .emptyObject (lowerEntries ⟨n⟩ ⟨n + 1⟩ ⟨n + 2⟩ (n + 3) before)
          (.insert ⟨n + 2⟩ key .value ::
            lowerEntries ⟨n⟩ ⟨n + 1⟩ ⟨n + 2⟩ (n + 3 + widthEntries before + item.width) after ++
            [.copy .value ⟨n + 2⟩, .copy .current ⟨n + 1⟩])) [] [])
      item (n + 3 + widthEntries before)
  | argument (name : String) (before : List Query) (arg : Query) (after : List Query) (n : Nat) :
    Part (.call name (before ++ arg :: after)) n
      (itemGap n (.list []) (lowerItems ⟨n⟩ ⟨n + 1⟩ ⟨n + 2⟩ (n + 3) before)
        (.push ⟨n + 2⟩ .value ::
          lowerItems ⟨n⟩ ⟨n + 1⟩ ⟨n + 2⟩ (n + 3 + widthAll before + arg.width) after ++
          [.copy .current ⟨n + 1⟩, .assign .value (.call name ⟨n + 2⟩)]))
      arg (n + 3 + widthAll before)

theorem temporariesAll_append (first second : List Query) :
    temporariesAll (first ++ second) = temporariesAll first ++ temporariesAll second := by
  induction first with
  | nil => rfl
  | cons query queries ih => simp only [List.cons_append, temporariesAll, ih, List.append_assoc]

theorem temporariesEntries_append (first second : List (String × Query)) :
    temporariesEntries (first ++ second) =
      temporariesEntries first ++ temporariesEntries second := by
  induction first with
  | nil => rfl
  | cons entry entries ih => simp only [List.cons_append, temporariesEntries, ih, List.append_assoc]

theorem lowerEach_append (base baseCurrent target : Slot) (n : Nat) (first second : List Member) :
    lowerEach base baseCurrent target n (first ++ second) =
      lowerEach base baseCurrent target n first ++
        lowerEach base baseCurrent target (n + widthEach first) second := by
  induction first generalizing n with
  | nil => rfl
  | cons member members ih =>
    simp only [List.cons_append, lowerEach, ih, widthEach_cons, List.append_assoc, Nat.add_assoc]

namespace Part

variable {query part : Query} {n m : Nat} {gap : Gap}

/-- The code of a query is the code of a part with the code around it. -/
theorem fill_eq (h : Part query n gap part m) : gap.fill (part.lower m) = query.lower n := by
  cases h with
  | shortCircuitLeft h | shortCircuitRight h =>
    simp [Gap.fill, rightGap, h.lower_eq, lowerShortCircuit, Stmt.when]
  | item | entry | argument =>
    simp [Gap.fill, itemGap, lower, lowerItems_eq, lowerEntries_eq, lowerEach_append, lowerEach,
      Member.ofItem, Member.ofEntry, Member.store, Stmt.when]
  | _ => simp [Gap.fill, pipeGap, lower, Stmt.when, lowerProjection, lowerSide]

/-- The temporaries of a part stand in a row among those of the query. -/
theorem temporaries_eq (h : Part query n gap part m) :
    ∃ before after, query.temporaries = before ++ (part.temporaries ++ after) ∧
      m = n + before.length := by
  cases h with
  | subexpressionLeft _ right | pipeLeft _ right => exact ⟨[], right.temporaries, rfl, rfl⟩
  | subexpressionRight left | pipeRight left =>
    exact ⟨left.temporaries, [], by rw [temporaries, List.append_nil], rfl⟩
  | @shortCircuitLeft _ _ right _ h =>
    exact ⟨["saved"], right.temporaries, by rw [h.temporaries_eq, List.singleton_append], rfl⟩
  | @shortCircuitRight _ left _ _ h =>
    refine ⟨"saved" :: left.temporaries, [], ?_, ?_⟩
    · rw [h.temporaries_eq, List.append_nil, List.cons_append]
    · rw [List.length_cons, width]
      omega
  | not => exact ⟨[], [], (List.append_nil _).symm, rfl⟩
  | flatten => exact ⟨[], ["flattened", "element"], rfl, rfl⟩
  | projectionLeft _ _ right =>
    exact ⟨[], ["base", "collected", "element"] ++ right.temporaries, by simp [temporaries], rfl⟩
  | projectionRight _ left =>
    refine ⟨left.temporaries ++ ["base", "collected", "element"], [], by simp [temporaries], ?_⟩
    simp [width, Nat.add_assoc]
  | comparatorLeft _ _ right =>
    exact ⟨["saved", "saved_current", "left", "right", "result"], right.temporaries,
      by simp [temporaries], rfl⟩
  | comparatorRight _ left =>
    refine ⟨["saved", "saved_current", "left", "right", "result"] ++ left.temporaries, [],
      by simp [temporaries], ?_⟩
    rw [List.length_append, ← Nat.add_assoc]
    rfl
  | item before _ after =>
    refine ⟨["base", "base_current", "selected"] ++ temporariesAll before, temporariesAll after,
      by simp [temporaries, temporariesAll_append, temporariesAll], ?_⟩
    rw [List.length_append, ← Nat.add_assoc]
    rfl
  | entry before _ _ after =>
    refine ⟨["base", "base_current", "selected"] ++ temporariesEntries before,
      temporariesEntries after,
      by simp [temporaries, temporariesEntries_append, temporariesEntries], ?_⟩
    rw [List.length_append, ← Nat.add_assoc]
    rfl
  | argument _ before _ after =>
    refine ⟨["base", "base_current", "args"] ++ temporariesAll before, temporariesAll after,
      by simp [temporaries, temporariesAll_append, temporariesAll], ?_⟩
    rw [List.length_append, ← Nat.add_assoc]
    rfl

/-- The temporaries of a part are among those of the query. -/
theorem bounds_le (h : Part query n gap part m) : n ≤ m ∧ m + part.width ≤ n + query.width := by
  obtain ⟨before, after, hq, rfl⟩ := h.temporaries_eq
  simp only [width, hq, List.length_append]
  omega

end Part

/-! ## Queries that a run comes to -/

/-- The code of a query whose temporaries start at `slot` is about to run. -/
structure Start (σ : Type) where
  query : Query
  slot : Nat
  frame : Frame
  state : σ

namespace Start

def code (start : Start σ) : List Stmt := start.query.lower start.slot

/-- The temporaries stand behind the registers and inside the frame. -/
structure Room (start : Start σ) : Prop where
  two_le : 2 ≤ start.slot
  le_size : start.slot + start.query.width ≤ start.frame.slots.size

end Start

/-- A run of a query's code comes to the code of that query, or of one inside it. -/
inductive Comes (host : Host σ) (start : Start σ) : Start σ → Prop
  | self : Comes host start start
  | part {inner : Start σ} {gap : Gap} {part : Query} {m : Nat} {g : Frame} {t : σ} :
    Comes host start inner → Part inner.query inner.slot gap part m →
    gap.Reached host (part.lower m) inner.frame inner.state g t →
    Comes host start ⟨part, m, g, t⟩

namespace Comes

variable {host : Host σ} {start inner : Start σ}

theorem room (h : Comes host start inner) (hr : start.Room) : inner.Room := by
  induction h with
  | self => exact hr
  | @part inner gap part m g t _ hp hg ih =>
    have hb := hp.bounds_le
    have hs := hg.size
    have h2 := ih.two_le
    have hi := ih.le_size
    constructor <;> dsimp only <;> omega

theorem visits (h : Comes host start inner) {moment : Moment σ}
    (hv : Visits host inner.code inner.frame inner.state moment) :
    Visits host start.code start.frame start.state moment := by
  induction h with
  | self => exact hv
  | @part inner gap part m g t _ hp hg ih =>
    refine ih ?_
    rw [Start.code, ← hp.fill_eq]
    exact hg.visits hv

end Comes

end Query

end PathQuery
