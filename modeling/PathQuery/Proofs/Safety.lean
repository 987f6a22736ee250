import Mathlib
import PathQuery.Proofs.Hygiene
import PathQuery.Value.Interchange

/-!
# Lowered code finds the values it is made for

A statement that finds a value of another kind than it is made for does something all the same: a
push leaves the frame alone, a call wraps what is no list of arguments, an offset gives null.
Compiled code never comes to that:

* `Stmt.Fits`: a statement finds values of the kinds that it is made for;
* `Query.lowersSafely`: all statements that a run of a query's code comes to fit. What is collected
  in a temporary stays an array or an object there, because the code in between keeps the
  temporaries below its own;
* `Procedure.fits_of_visits`: so do all statements that a run of a compiled procedure comes to.
-/

namespace PathQuery

variable {σ : Type}

namespace Value

theorem eq_array_of_isSequence {value : Value} (h : value.isSequence = true) :
    ∃ items, value = .array items := by
  cases value with
  | array items => exact ⟨items, rfl⟩
  | _ => cases h

theorem eq_object_of_isMapping {value : Value} (h : value.isMapping = true) :
    ∃ entries, value = .object entries := by
  cases value with
  | object entries => exact ⟨entries, rfl⟩
  | _ => cases h

/-- A length and a negative offset add up to a number between the two. -/
theorem fits_add_of_neg {length delta : Int} (hl : fits length) (hd : fits delta)
    (h0 : 0 ≤ length) (hn : delta < 0) : fits (length + delta) := by
  simp only [fits, Bool.and_eq_true, decide_eq_true_eq] at hl hd ⊢
  omega

end Value

/-- An expression finds values of the kinds that it is made for. -/
def Expr.Fits (frame : Frame) : Expr → Prop
  | .field source _ => ∃ entries, frame.get source = .object entries
  | .element source index =>
    (∃ items, frame.get source = .array items) ∧ ∃ i, index.eval frame = .integer i
  -- a length and an offset of 64 bits add up without overflow
  | .offset source delta => ∃ items, frame.get source = .array items ∧
    (Value.fits items.length → Value.fits delta → Value.fits (items.length + delta))
  | .call _ args => ∃ items, frame.get args = .array items
  | _ => True

namespace Stmt

/-- A statement finds values of the kinds that it is made for. -/
def Fits : Stmt → Frame → Prop
  | .assign _ expr, frame => expr.Fits frame
  | .branch _ _ _, _ => True
  | .forEach _ source _, frame =>
    (∃ items, frame.get source = .array items) ∨ ∃ entries, frame.get source = .object entries
  | .push list _, frame => ∃ items, frame.get list = .array items
  | .extend list items, frame =>
    (∃ old, frame.get list = .array old) ∧ ∃ new, frame.get items = .array new
  | .insert object _ _, frame => ∃ entries, frame.get object = .object entries

section

variable {host : Host σ} {frame : Frame} {s : σ} {post : Frame → σ → Prop} {rest : List Stmt}

theorem safe_push {list item : Slot} {items : List Value} (h : frame.get list = .array items)
    (hr : Safe host Fits rest (frame.set list (.array (items ++ [frame.get item]))) s post) :
    Safe host Fits (.push list item :: rest) frame s post := by
  refine safe_simple rfl ⟨items, h⟩ fun _ => ?_
  simp only [exec, Frame.push, h]
  exact hr

theorem safe_extend {list items : Slot} {old new : List Value} (hl : frame.get list = .array old)
    (hi : frame.get items = .array new)
    (hr : Safe host Fits rest (frame.set list (.array (old ++ new))) s post) :
    Safe host Fits (.extend list items :: rest) frame s post := by
  refine safe_simple rfl ⟨⟨old, hl⟩, new, hi⟩ fun _ => ?_
  simp only [exec, Frame.extend, hl, hi]
  exact hr

theorem safe_insert {object item : Slot} {key : String} {entries : Entries Value}
    (h : frame.get object = .object entries)
    (hr : Safe host Fits rest
      (frame.set object (.object (Entries.insert key (frame.get item) entries))) s post) :
    Safe host Fits (.insert object key item :: rest) frame s post := by
  refine safe_simple rfl ⟨entries, h⟩ fun _ => ?_
  simp only [exec, Frame.insert, h]
  exact hr

/-- The rule for assignments that do not turn to the host. -/
theorem safe_set {target : Slot} {expr : Expr} {value : Value}
    (he : expr.eval host frame s = (.ok value, s)) (hf : expr.Fits frame)
    (hr : Safe host Fits rest (frame.set target value) s post) :
    Safe host Fits (.assign target expr :: rest) frame s post := by
  refine safe_assign hf fun v t hv => ?_
  cases he.symm.trans hv
  exact hr

theorem safe_when {test : Test} {yes : List Stmt}
    (hy : test.holds frame = true → Safe host Fits yes frame s post)
    (hn : test.holds frame = false → post frame s) :
    Safe host Fits [.when test yes] frame s post := by
  refine safe_branch trivial (fun ht => ?_) (fun ht => safe_nil_iff.2 (hn ht))
  rw [List.append_nil]
  exact hy ht

end

end Stmt

namespace Query

open Stmt

/-- Every statement that a run of the query's code comes to fits its frame, in all frames with room
for the code. -/
def LowersSafely (host : Host σ) (query : Query) : Prop :=
  ∀ n frame s, 2 ≤ n → n + query.width ≤ frame.slots.size →
    Safe host Fits (query.lower n) frame s fun _ _ => True

variable {host : Host σ}

theorem LowersSafely.keeps {query : Query} (h : query.LowersSafely host) {n : Nat} {frame : Frame}
    {s : σ} (hn : 2 ≤ n) (hs : n + query.width ≤ frame.slots.size) :
    Safe host Fits (query.lower n) frame s fun after _ => frame.Keeps n after :=
  ⟨(h n frame s hn hs).good, fun _ => query.keeps_lower host n frame s⟩

section

variable {frame : Frame} {s : σ} {post : Frame → σ → Prop}

theorem safe_setNull {rest : List Stmt}
    (h : Safe host Fits rest (frame.set .value .null) s post) :
    Safe host Fits (setNull :: rest) frame s post :=
  safe_set rfl trivial h

theorem safe_lowerIndex {n : Nat} {i : Int} {items : List Value} (hn : 2 ≤ n)
    (hs : n + (index i).width ≤ frame.slots.size) (hv : frame.get .value = .array items) :
    Safe host Fits (lowerIndex ⟨n⟩ i) frame s fun _ _ => True := by
  by_cases hi : i < 0
  · have hw : n < frame.slots.size := by
      simp only [width, temporaries, hi, if_true, List.length_singleton] at hs
      omega
    rw [lowerIndex, if_pos hi]
    refine safe_set (by rw [Expr.eval, hv]) ⟨items, hv, fun hl hd => ?_⟩ ?_
    · exact Value.fits_add_of_neg hl hd (Int.natCast_nonneg _) hi
    · refine safe_set rfl ⟨⟨items, ?_⟩, items.length + i, ?_⟩ (safe_nil_iff.2 trivial)
      · grind
      · rw [Operand.eval]
        grind
  · rw [lowerIndex, if_neg hi]
    exact safe_set rfl ⟨⟨items, hv⟩, i, rfl⟩ (safe_nil_iff.2 trivial)

end

/-- A loop that collects values in slot `m` always has an array there. -/
def Collects (size m : Nat) (frame : Frame) : Prop :=
  frame.slots.size = size ∧ ∃ items, frame.get ⟨m⟩ = .array items

theorem collects_set {size m : Nat} {frame : Frame} (hs : frame.slots.size = size) (hm : m < size)
    (items : List Value) : Collects size m (frame.set ⟨m⟩ (.array items)) :=
  ⟨by rw [Frame.size_set, hs], items, frame.get_set_self (hs ▸ hm) _⟩

theorem safe_lowerSplice {size m : Nat} {frame : Frame} {s : σ} (hm : m + 1 < size)
    (h : Collects size m frame) :
    Safe host Fits [lowerSplice ⟨m⟩ ⟨m + 1⟩] frame s fun after _ => Collects size m after := by
  obtain ⟨hs, old, ho⟩ := h
  refine safe_branch trivial (fun ht => ?_) fun _ => safe_when (fun _ => ?_) fun _ => ⟨hs, old, ho⟩
  · rw [Test.holds] at ht
    split at ht
    · exact safe_extend ho ‹_› (safe_nil_iff.2 (collects_set hs (by omega) _))
    · cases ht
  · exact safe_push ho (safe_nil_iff.2 (collects_set hs (by omega) _))

theorem safe_lowerFlatten {m : Nat} {frame : Frame} {s : σ} (h2 : 2 ≤ m)
    (hm : m + 2 ≤ frame.slots.size) :
    Safe host Fits [lowerFlatten ⟨m⟩ ⟨m + 1⟩] frame s fun _ _ => True := by
  refine safe_branch trivial (fun _ => safe_setNull (safe_nil_iff.2 trivial)) fun ht => ?_
  obtain ⟨items, hv⟩ := Value.eq_array_of_isSequence (by simpa [Test.holds] using ht)
  refine safe_set rfl trivial ?_
  refine safe_forEach (fun after _ => Collects frame.slots.size m after)
    (.inl ⟨items, ?_⟩) (collects_set rfl (by omega) []) (fun after s value hi => ?_) fun _ _ _ => ?_
  · grind
  · obtain ⟨hs, old, ho⟩ := hi
    exact safe_lowerSplice (by omega) ⟨by grind, old, by grind⟩
  · exact safe_copy trivial (safe_nil_iff.2 trivial)

theorem safe_lowerProjection {source : SourceKind} {right : Query} (ih : right.LowersSafely host)
    {m : Nat} {frame : Frame} {s : σ} (h2 : 2 ≤ m) (hm : m + 3 + right.width ≤ frame.slots.size) :
    Safe host Fits
      [lowerProjection source ⟨m⟩ ⟨m + 1⟩ ⟨m + 2⟩ (right.lower (m + 3))] frame s
      fun _ _ => True := by
  refine safe_branch trivial (fun _ => safe_setNull (safe_nil_iff.2 trivial)) fun ht => ?_
  have hv : (∃ items, frame.get .value = .array items) ∨
      ∃ entries, frame.get .value = .object entries := by
    have hg : (guard source).holds frame = true := by simpa [Test.holds] using ht
    cases source with
    | array => exact .inl (Value.eq_array_of_isSequence hg)
    | object => exact .inr (Value.eq_object_of_isMapping hg)
  refine safe_copy trivial (safe_set rfl trivial ?_)
  refine safe_forEach (fun after _ => Collects frame.slots.size (m + 1) after)
    ?_ (collects_set (by grind) (by omega) []) (fun after s value hi => ?_) fun _ _ _ => ?_
  · -- the guard has passed, and the base is a copy of what it looked at
    rcases hv with ⟨items, hv⟩ | ⟨entries, hv⟩
    · exact .inl ⟨items, by grind⟩
    · exact .inr ⟨entries, by grind⟩
  · obtain ⟨hs, old, ho⟩ := hi
    rw [List.cons_append]
    refine safe_copy trivial (safe_append_iff.2 ((ih.keeps (by omega) (by grind)).mono ?_))
    intro answered s hk
    -- the code of the right side starts at slot `m + 3`, so what was collected is still there
    have hc : answered.get ⟨m + 1⟩ = .array old := (hk.get _ (by omega) (by omega)).trans (by grind)
    refine safe_when (fun _ => ?_) fun _ => ⟨by grind, old, hc⟩
    exact safe_push hc (safe_nil_iff.2 (collects_set (by grind) (by omega) _))
  · exact safe_copy trivial (safe_nil_iff.2 trivial)

/-- What the answers of queries with such keys are collected in. -/
def Collection : Option String → Value → Prop
  | none, value => ∃ items, value = .array items
  | some _, value => ∃ entries, value = .object entries

theorem safe_store {member : Member} {target : Slot} {frame : Frame} {s : σ}
    {post : Frame → σ → Prop} {rest : List Stmt} (h : Collection member.key (frame.get target))
    (hr : ∀ stored, Collection member.key stored →
      Safe host Fits rest (frame.set target stored) s post) :
    Safe host Fits (member.store target :: rest) frame s post := by
  obtain ⟨_ | key, query⟩ := member
  · obtain ⟨items, hi⟩ := h
    exact safe_push hi (hr _ ⟨_, rfl⟩)
  · obtain ⟨entries, he⟩ := h
    exact safe_insert he (hr _ ⟨_, rfl⟩)

/-- The code of several queries, given the same of each of them: slot `b + 2` has a value of the
kind that they are collected in all the way. -/
theorem safe_lowerEach {key : Option String} {members : List Member}
    (hm : ∀ member ∈ members,
      member.query.LowersSafely host ∧ Collection member.key = Collection key)
    {b n : Nat} {frame : Frame} {s : σ} (h2 : 2 ≤ b) (hn : b + 3 ≤ n)
    (hs : n + widthEach members ≤ frame.slots.size) (hk : Collection key (frame.get ⟨b + 2⟩)) :
    Safe host Fits (lowerEach ⟨b⟩ ⟨b + 1⟩ ⟨b + 2⟩ n members) frame s
      fun after _ => after.slots.size = frame.slots.size ∧ Collection key (after.get ⟨b + 2⟩) := by
  induction members generalizing n frame s with
  | nil => exact safe_nil_iff.2 ⟨rfl, hk⟩
  | cons member members ih =>
    obtain ⟨⟨hq, hkind⟩, hr⟩ := List.forall_mem_cons.1 hm
    rw [widthEach_cons] at hs
    rw [lowerEach, List.cons_append, List.cons_append]
    refine safe_copy trivial (safe_copy trivial (safe_append_iff.2 ?_))
    refine (hq.keeps (by omega) (by grind)).mono fun answered s hkept => ?_
    have hsize : answered.slots.size = frame.slots.size := by grind
    have hget : answered.get ⟨b + 2⟩ = frame.get ⟨b + 2⟩ :=
      (hkept.get _ (by omega) (by omega)).trans (by grind)
    refine safe_store (by rwa [hkind, hget]) fun stored hstored => ?_
    rw [hkind] at hstored
    refine (@ih hr (n + member.query.width) _ s (by omega) (by grind) ?_).mono fun after s h => ?_
    · rwa [Frame.get_set_self _ (by dsimp only; omega)]
    · rwa [Frame.size_set, hsize] at h

/-- The code that saves the registers and collects the answers of several queries, and then does
the rest. -/
theorem safe_collect (key : Option String) (initial : Value) {members : List Member} {empty : Expr}
    {n : Nat} {rest : List Stmt} {frame : Frame} {s : σ} {post : Frame → σ → Prop}
    (hm : ∀ member ∈ members,
      member.query.LowersSafely host ∧ Collection member.key = Collection key)
    (he : ∀ frame, empty.eval host frame s = (.ok initial, s) ∧ empty.Fits frame)
    (hk : Collection key initial) (hn : 2 ≤ n) (hs : n + 3 + widthEach members ≤ frame.slots.size)
    (hr : ∀ after s, after.slots.size = frame.slots.size → Collection key (after.get ⟨n + 2⟩) →
      Safe host Fits rest after s post) :
    Safe host Fits (.copy ⟨n⟩ .value :: .copy ⟨n + 1⟩ .current :: .assign ⟨n + 2⟩ empty ::
      (lowerEach ⟨n⟩ ⟨n + 1⟩ ⟨n + 2⟩ (n + 3) members ++ rest)) frame s post := by
  refine safe_copy trivial (safe_copy trivial (safe_set (he _).1 (he _).2 (safe_append_iff.2 ?_)))
  refine (safe_lowerEach hm hn (by omega) (by grind) ?_).mono fun after s h => ?_
  · rwa [Frame.get_set_self _ (by grind)]
  · exact hr after s (by grind) h.2

/-- Every statement that a run of a query's code comes to fits its frame. -/
theorem lowersSafely (host : Host σ) (query : Query) : query.LowersSafely host := by
  induction query with
  | literal value => exact fun n frame s hn hs => safe_set rfl trivial (safe_nil_iff.2 trivial)
  | field name =>
    intro n frame s hn hs
    refine safe_branch trivial (fun ht => ?_) fun _ => safe_setNull (safe_nil_iff.2 trivial)
    obtain ⟨entries, hv⟩ := Value.eq_object_of_isMapping ht
    exact safe_set rfl ⟨entries, hv⟩ (safe_nil_iff.2 trivial)
  | index i =>
    intro n frame s hn hs
    refine safe_branch trivial (fun ht => ?_) fun _ => safe_setNull (safe_nil_iff.2 trivial)
    obtain ⟨items, hv⟩ := Value.eq_array_of_isSequence ht
    rw [List.append_nil]
    exact safe_lowerIndex hn hs hv
  | current => exact fun n frame s hn hs => safe_nil_iff.2 trivial
  | subexpression left right ihl ihr =>
    intro n frame s hn hs
    rw [width_subexpression] at hs
    rw [lower, safe_append_iff]
    refine (ihl.keeps hn (by omega)).mono fun after s hk => ?_
    exact safe_when (fun _ => ihr _ _ _ (by omega) (by grind)) fun _ => trivial
  | pipe left right ihl ihr =>
    intro n frame s hn hs
    rw [width_pipe] at hs
    rw [lower, safe_append_iff]
    refine (ihl.keeps hn (by omega)).mono fun after s hk => ?_
    exact safe_copy trivial (ihr _ _ _ (by omega) (by grind))
  | or left right ihl ihr | and left right ihl ihr =>
    intro n frame s hn hs
    simp only [width_or, width_and] at hs
    rw [lower, lowerShortCircuit, List.cons_append]
    refine safe_copy trivial (safe_append_iff.2 ?_)
    refine (ihl.keeps (by omega) (by grind)).mono fun after s hk => ?_
    exact safe_when (fun _ => safe_copy trivial (ihr _ _ _ (by omega) (by grind))) fun _ => trivial
  | not query ih =>
    intro n frame s hn hs
    rw [width_not] at hs
    rw [lower, safe_append_iff]
    exact (ih n frame s hn hs).mono fun after s _ => safe_set rfl trivial (safe_nil_iff.2 trivial)
  | flatten query ih =>
    intro n frame s hn hs
    rw [width_flatten] at hs
    rw [lower, safe_append_iff]
    refine (ih.keeps hn (by omega)).mono fun after s hk => ?_
    exact safe_lowerFlatten (by omega) (by grind)
  | projection source left right ihl ihr =>
    intro n frame s hn hs
    rw [width_projection] at hs
    rw [lower, safe_append_iff]
    refine (ihl.keeps hn (by omega)).mono fun after s hk => ?_
    exact safe_lowerProjection ihr (by omega) (by grind)
  | comparator op left right ihl ihr =>
    intro n frame s hn hs
    rw [width_comparator] at hs
    simp only [lower, lowerSide, List.append_assoc, List.cons_append, List.nil_append]
    refine safe_copy trivial (safe_copy trivial (safe_append_iff.2 ?_))
    refine (ihl.keeps (by omega) (by grind)).mono fun after s hk => ?_
    refine safe_copy trivial (safe_copy trivial (safe_copy trivial (safe_append_iff.2 ?_)))
    refine (ihr.keeps (by omega) (by grind)).mono fun after s _ => ?_
    refine safe_copy trivial (safe_set rfl trivial ?_)
    refine safe_branch trivial (fun _ => ?_) fun _ => ?_
    · exact safe_copy trivial (safe_copy trivial (safe_nil_iff.2 trivial))
    · exact safe_setNull (safe_copy trivial (safe_nil_iff.2 trivial))
  | list items ih =>
    intro n frame s hn hs
    refine safe_when (fun _ => ?_) fun _ => trivial
    simp only [List.cons_append, lowerItems_eq]
    refine safe_collect none (.array [])
      (List.forall_mem_map.2 fun item hi => ⟨ih item hi, rfl⟩) (fun _ => ⟨rfl, trivial⟩) ⟨[], rfl⟩
      hn (by simpa [Nat.add_assoc] using hs) fun _ _ _ _ => ?_
    exact safe_copy trivial (safe_copy trivial (safe_nil_iff.2 trivial))
  | hash entries ih =>
    intro n frame s hn hs
    refine safe_when (fun _ => ?_) fun _ => trivial
    simp only [List.cons_append, lowerEntries_eq]
    refine safe_collect (some "") (.object [])
      (List.forall_mem_map.2 fun entry he => ⟨ih entry he, rfl⟩) (fun _ => ⟨rfl, trivial⟩)
      ⟨[], rfl⟩ hn (by simpa [Nat.add_assoc] using hs) fun _ _ _ _ => ?_
    exact safe_copy trivial (safe_copy trivial (safe_nil_iff.2 trivial))
  | call name args ih =>
    intro n frame s hn hs
    simp only [lower, List.cons_append, lowerItems_eq]
    refine safe_collect none (.array [])
      (List.forall_mem_map.2 fun arg ha => ⟨ih arg ha, rfl⟩) (fun _ => ⟨rfl, trivial⟩) ⟨[], rfl⟩ hn
      (by simpa [Nat.add_assoc] using hs) ?_
    rintro after s hsize ⟨values, hv⟩
    refine safe_copy trivial (safe_assign ⟨values, ?_⟩ fun _ _ _ => safe_nil_iff.2 trivial)
    rw [after.get_set_of_ne (by simp only [Slot.index_current]; omega), hv]
  | slice start stop step =>
    intro n frame s hn hs
    rw [width_slice] at hs
    have hargs (values : List Value) : (frame.set ⟨n⟩ (.array values)).get ⟨n⟩ = .array values :=
      frame.get_set_self hs _
    exact safe_set rfl trivial (safe_assign ⟨_, hargs _⟩ fun _ _ _ => safe_nil_iff.2 trivial)
  | reference site node =>
    exact fun n frame s hn hs => safe_set rfl trivial (safe_nil_iff.2 trivial)

end Query

namespace Procedure

/-- No statement of a compiled procedure ever finds values that it is not made for. -/
theorem fits_of_visits {node : Node} {options : Options} {first : Nat} {procedure : Procedure}
    (h : compile node options first = .ok procedure) (host : Host σ) (root : Value) (s : σ)
    {moment : Moment σ}
    (hv : Stmt.Visits host procedure.body (Frame.start procedure.slots.length root) s moment) :
    moment.stmt.Fits moment.frame := by
  obtain ⟨query, -, rfl⟩ := compile_eq_ok h
  refine (Stmt.safe_copy trivial (query.lowersSafely host 2 _ s (by omega) ?_)).good moment hv
  exact Nat.le_of_eq (by rw [Frame.size_set, Frame.size_start, length_slots_ofQuery])

open Stmt in
/-- The second round of a projection, which counts back from the end of its array by the largest
offset that 64 bits hold. -/
theorem fits_of_visits_offset :
    let node : Node := .projection none .current (.index (-9223372036854775808))
    let query : Query := .projection .array .current (.index (-9223372036854775808))
    let short : Value := .array [.integer 1]
    let long : Value := .array [.integer 2, .integer 3]
    let rows : Value := .array [short, long]
    let moment : Moment Unit := ⟨.assign ⟨5⟩ (.offset .value (-9223372036854775808)),
      ⟨#[long, rows, rows, .array [], long, .integer (-9223372036854775807)]⟩, ()⟩
    compile node {} = .ok (ofQuery {} query) ∧
      Visits .unbound (ofQuery {} query).body (.start (ofQuery {} query).slots.length rows) ()
        moment ∧
      moment.stmt.Fits moment.frame := by
  intro node query short long rows moment
  have hc : compile node {} = .ok (ofQuery {} query) := by cbv
  have hn : (ofQuery {} query).slots.length = 6 := by cbv
  let round : List Stmt := .copy .value ⟨4⟩ :: (Query.index (-9223372036854775808)).lower 5 ++
    [.when (.not (.isNull .value)) [.push ⟨3⟩ .value]]
  let first : Frame := ⟨#[rows, rows, .null, .null, .null, .null]⟩
  let second : Frame := ⟨#[rows, rows, rows, .null, .null, .null]⟩
  let third : Frame := ⟨#[rows, rows, rows, .array [], .null, .null]⟩
  let fourth : Frame := ⟨#[.null, rows, rows, .array [], short, .integer (-9223372036854775807)]⟩
  have h1 : (copy .current .value).exec .unbound (.start 6 rows) () = ⟨first, (), none⟩ := by cbv
  have h2 : (copy ⟨2⟩ .value).exec .unbound first () = ⟨second, (), none⟩ := by cbv
  have h3 : (assign ⟨3⟩ (.list [])).exec .unbound second () = ⟨third, (), none⟩ := by cbv
  have h4 : loop (fun frame s => execAll .unbound round frame s) ⟨4⟩ [short] third () =
    ⟨fourth, (), none⟩ := by cbv
  have h5 : (copy .value ⟨4⟩).exec .unbound (fourth.set ⟨4⟩ long) () =
    ⟨moment.frame, (), none⟩ := by cbv
  have hr : (third.get ⟨2⟩).elements = [short] ++ long :: [] := rfl
  have hv : Visits .unbound (ofQuery {} query).body (.start 6 rows) () moment :=
    .later h1 (.no rfl (.later h2 (.later h3 (.round hr h4 (.later h5 (.yes rfl .here))))))
  rw [← hn] at hv
  exact ⟨hc, hv, fits_of_visits hc .unbound rows () hv⟩

end Procedure

end PathQuery
