import Mathlib
import PathQuery.Proofs.Constructs
import PathQuery.Proofs.Parts

/-!
# What becomes of the current context

A pipe moves the current context, and the constructs that run several queries on one value put it
back:

* `Query.keepsCurrent`: the code of a query keeps the current context unless a pipe in it is
  exposed, that is, stands outside of all comparisons, multi-selects and calls;
* `Query.value_current_of_reached`: inside these, each part starts with the registers as the whole
  construct found them;
* `current_discipline`: both, and where the right side of a pipe starts, of all nodes that a run of
  a node's code comes to.
-/

namespace PathQuery

variable {σ : Type}

/-! ## Exposed pipes -/

/-- The kinds of nodes that put the current context back. -/
def Kind.isolates : Kind → Bool
  | .comparator | .multiSelectList | .multiSelectHash | .functionCall | .expressionReference => true
  | _ => false

mutual

/-- The node has a pipe in it that is not inside a node of a kind that puts the current context
back. -/
def Node.exposesPipe : Node → Bool
  | ⟨kind, _, children, _⟩ => kind == .pipe || !kind.isolates && exposesPipeAny children

@[inherit_doc Node.exposesPipe]
def Node.exposesPipeAny : List Node → Bool
  | [] => false
  | node :: nodes => node.exposesPipe || exposesPipeAny nodes

end

theorem Node.exposesPipe_of_mem {node child : Node} (hk : node.kind.isolates = false)
    (hc : child ∈ node.children) (h : node.exposesPipe = false) : child.exposesPipe = false := by
  obtain ⟨kind, value, children, source⟩ := node
  have hany (nodes : List Node) (hn : exposesPipeAny nodes = false) (hm : child ∈ nodes) :
      child.exposesPipe = false := by
    induction nodes with
    | nil => cases hm
    | cons node nodes ih =>
      rw [exposesPipeAny, Bool.or_eq_false_iff] at hn
      rcases List.mem_cons.1 hm with rfl | hm
      · exact hn.1
      · exact ih hn.2 hm
  rw [exposesPipe, Bool.or_eq_false_iff] at h
  simp only [hk] at h
  exact hany children (by simpa using h.2) hc

namespace Query

/-- The constructs that run their parts with the registers as they found them. -/
def isolates : Query → Bool
  | .comparator _ _ _ | .list _ | .hash _ | .call _ _ => true
  | _ => false

@[inherit_doc Node.exposesPipe]
def exposesPipe : Query → Bool
  | .pipe _ _ => true
  | .subexpression left right | .or left right | .and left right | .projection _ left right =>
    left.exposesPipe || right.exposesPipe
  | .not query | .flatten query => query.exposesPipe
  | _ => false

theorem exposesPipe_number (query : Query) (site : Nat) :
    (query.number site).exposesPipe = query.exposesPipe := by
  induction query generalizing site with
  | _ => simp_all [number, exposesPipe]

theorem exposesPipe_binary {kind : Kind} {value : Option Value} {left right : Node}
    {source : Option SourceKind} {l r : Query} (hk : kind.isolates = false)
    (hl : left.exposesPipe = false → l.exposesPipe = false)
    (hr : right.exposesPipe = false → r.exposesPipe = false)
    (h : Node.exposesPipe ⟨kind, value, [left, right], source⟩ = false) :
    (l.exposesPipe || r.exposesPipe) = false := by
  rw [hl (Node.exposesPipe_of_mem hk (by simp) h), hr (Node.exposesPipe_of_mem hk (by simp) h)]
  rfl

/-- The pipes that a query exposes are those of its node. -/
theorem exposesPipe_of_check {depth : Nat} {node : Node} {query : Query}
    (hc : check depth node = .ok query) (h : node.exposesPipe = false) :
    query.exposesPipe = false := by
  refine check_induction
    (motive := fun _ node query => node.exposesPipe = false → query.exposesPipe = false)
    ?literal ?field ?index ?slice ?current ?reference ?not ?flatten ?pair ?subexpression ?pipe ?or
    ?and ?projection ?comparator ?list ?hash ?call hc h
  case literal | field | index | slice | current | reference | comparator | list | hash | call =>
    intros
    rfl
  case not | flatten | pair =>
    intro _ _ _ _ _ _ hq h
    exact hq (Node.exposesPipe_of_mem (by rfl) (by simp) h)
  case subexpression =>
    rintro _ kind _ _ _ _ _ _ _ (rfl | rfl) hl hr h
    · exact exposesPipe_binary rfl hl hr h
    · exact exposesPipe_binary rfl hl hr h
  case pipe =>
    intro _ _ _ _ _ _ _ _ _ _ h
    cases h
  case or | and | projection =>
    intro _ _ _ _ _ _ _ _ hl hr h
    exact exposesPipe_binary rfl hl hr h

end Query

/-! ## What a run keeps -/

namespace Stmt

/-- Where the run of a block ends, `post` holds, unless it stops at an error. -/
abbrev Leads (host : Host σ) (block : List Stmt) (frame : Frame) (s : σ) (post : Frame → σ → Prop) :
    Prop :=
  Safe host (fun _ _ => True) block frame s post

variable {host : Host σ} {frame : Frame} {s : σ} {post : Frame → σ → Prop} {rest : List Stmt}

theorem leads_iff {block : List Stmt} :
    Leads host block frame s post ↔ (execAll host block frame s).Ends post :=
  ⟨Safe.ends, fun h => ⟨fun _ _ => trivial, h⟩⟩

theorem Leads.of_execAll {block : List Stmt} {g : Frame} {t : σ}
    (h : Leads host block frame s post) (he : execAll host block frame s = ⟨g, t, none⟩) :
    post g t := by
  have hends := h.ends
  rw [he] at hends
  exact hends rfl

theorem leads_push {list item : Slot} (h : ∀ after, frame.ChangedIn [list] after →
    Leads host rest after s post) : Leads host (.push list item :: rest) frame s post :=
  safe_simple rfl trivial fun _ => h _ (frame.changedIn_push (by simp) item)

theorem leads_extend {list items : Slot} (h : ∀ after, frame.ChangedIn [list] after →
    Leads host rest after s post) : Leads host (.extend list items :: rest) frame s post :=
  safe_simple rfl trivial fun _ => h _ (frame.changedIn_extend (by simp) items)

theorem leads_insert {object item : Slot} {key : String} (h : ∀ after,
    frame.ChangedIn [object] after → Leads host rest after s post) :
    Leads host (.insert object key item :: rest) frame s post :=
  safe_simple rfl trivial fun _ => h _ (frame.changedIn_insert (by simp) key item)

theorem leads_store {target : Slot} {member : Query.Member} (h : ∀ after,
    frame.ChangedIn [target] after → Leads host rest after s post) :
    Leads host (member.store target :: rest) frame s post := by
  obtain ⟨_ | key, query⟩ := member
  · exact leads_push h
  · exact leads_insert h

theorem leads_when {test : Test} {yes : List Stmt} (hy : Leads host yes frame s post)
    (hn : post frame s) : Leads host [.when test yes] frame s post := by
  refine safe_branch trivial (fun _ => ?_) fun _ => safe_nil_iff.2 hn
  rwa [List.append_nil]

end Stmt

namespace Query

open Stmt

variable {host : Host σ}

theorem leads_keeps (query : Query) (n : Nat) (frame : Frame) (s : σ) :
    Leads host (query.lower n) frame s fun after _ => frame.Keeps n after :=
  leads_iff.2 fun _ => query.keeps_lower host n frame s

/-- The code of several queries keeps the slots where the registers were saved. -/
theorem leads_lowerEach {b n : Nat} (hn : b + 3 ≤ n) (members : List Member) (frame : Frame)
    (s : σ) :
    Leads host (lowerEach ⟨b⟩ ⟨b + 1⟩ ⟨b + 2⟩ n members) frame s
      fun after _ => frame.Keeps (b + 2) after := by
  induction members generalizing n frame s with
  | nil => exact safe_nil_iff.2 ⟨rfl, fun _ _ _ => rfl⟩
  | cons member members ih =>
    rw [lowerEach, List.cons_append, List.cons_append]
    refine safe_copy trivial (safe_copy trivial (safe_append_iff.2 ?_))
    refine (member.query.leads_keeps n _ s).mono fun answered s hk => leads_store fun after hc => ?_
    refine (@ih (n + member.query.width) (by omega) after s).mono
      fun last s hl => ⟨?_, fun i hi hb => ?_⟩
    · rw [hl.size, hc.size, hk.size, Frame.size_set, Frame.size_set]
    · rw [hl.get i hi hb, hc.get ⟨i⟩ (by simp; omega), hk.get i hi (by omega)]
      grind

/-- The frame has the registers of another one in the slots from `n` on. -/
structure Saved (n : Nat) (frame saved : Frame) : Prop where
  size : saved.slots.size = frame.slots.size
  value : saved.get ⟨n⟩ = frame.get .value
  current : saved.get ⟨n + 1⟩ = frame.get .current

/-- Where the queries whose answers are collected have run, the registers that were saved before
them are still there. -/
theorem leads_collect {n : Nat} {empty : Expr} {members : List Member} {rest : List Stmt}
    {frame : Frame} {s : σ} {post : Frame → σ → Prop} (hn : 2 ≤ n) (hs : n + 3 ≤ frame.slots.size)
    (h : ∀ after s, Saved n frame after → Leads host rest after s post) :
    Leads host (.copy ⟨n⟩ .value :: .copy ⟨n + 1⟩ .current :: .assign ⟨n + 2⟩ empty ::
      (lowerEach ⟨n⟩ ⟨n + 1⟩ ⟨n + 2⟩ (n + 3) members ++ rest)) frame s post := by
  refine safe_copy trivial (safe_copy trivial (safe_assign trivial fun _ _ _ => ?_))
  refine safe_append_iff.2 ((leads_lowerEach (by omega) members _ _).mono fun after s hk => ?_)
  have hv := hk.get n (by omega) (by omega)
  have hc := hk.get (n + 1) (by omega) (by omega)
  exact h after s ⟨by grind, by grind, by grind⟩

/-- The code of the query leaves the current context as it was, in all frames with room for it. -/
def KeepsCurrent (host : Host σ) (query : Query) : Prop :=
  ∀ n frame s, 2 ≤ n → n + query.width ≤ frame.slots.size →
    Leads host (query.lower n) frame s fun after _ => after.get .current = frame.get .current

theorem KeepsCurrent.keeps {query : Query} (h : query.KeepsCurrent host) {n : Nat} {frame : Frame}
    {s : σ} (hn : 2 ≤ n) (hs : n + query.width ≤ frame.slots.size) :
    Leads host (query.lower n) frame s
      fun after _ => frame.Keeps n after ∧ after.get .current = frame.get .current :=
  leads_iff.2 fun he => ⟨query.keeps_lower host n frame s, (h n frame s hn hs).ends he⟩

theorem leads_lowerIndex (n : Nat) (hn : 2 ≤ n) (i : Int) (frame : Frame) (s : σ) :
    Leads host (lowerIndex ⟨n⟩ i) frame s
      fun after _ => after.get .current = frame.get .current := by
  by_cases hi : i < 0
  · rw [lowerIndex, if_pos hi]
    refine safe_assign trivial fun _ _ _ => safe_assign trivial fun _ _ _ => safe_nil_iff.2 ?_
    grind
  · rw [lowerIndex, if_neg hi]
    refine safe_assign trivial fun _ _ _ => safe_nil_iff.2 ?_
    grind

theorem leads_setNull (frame : Frame) (s : σ) :
    Leads host [setNull] frame s fun after _ => after.get .current = frame.get .current :=
  safe_assign trivial fun _ _ _ => safe_nil_iff.2 (by grind)

theorem leads_lowerFlatten {m : Nat} (hm : 2 ≤ m) (frame : Frame) (s : σ) :
    Leads host [lowerFlatten ⟨m⟩ ⟨m + 1⟩] frame s
      fun after _ => after.get .current = frame.get .current := by
  refine safe_branch trivial (fun _ => leads_setNull frame s) fun _ => ?_
  refine safe_assign trivial fun _ _ _ => ?_
  refine safe_forEach (fun after _ => after.get .current = frame.get .current) trivial (by grind)
    (fun before s value hi => ?_) fun after s hi => safe_copy trivial (safe_nil_iff.2 (by grind))
  have hb : (before.set ⟨m + 1⟩ value).get .current = frame.get .current := by grind
  have hc : Slot.current ∉ [(⟨m⟩ : Slot)] := by simp [Slot.current]; omega
  refine safe_branch trivial (fun _ => leads_extend fun after ha => safe_nil_iff.2 ?_) fun _ =>
    leads_when (leads_push fun after ha => safe_nil_iff.2 ?_) hb
  · rw [ha.get _ hc, hb]
  · rw [ha.get _ hc, hb]

theorem leads_lowerProjection {right : Query} (ih : right.KeepsCurrent host) {m : Nat} (h2 : 2 ≤ m)
    {source : SourceKind} {frame : Frame} {s : σ} (hs : m + 3 + right.width ≤ frame.slots.size) :
    Leads host [lowerProjection source ⟨m⟩ ⟨m + 1⟩ ⟨m + 2⟩ (right.lower (m + 3))] frame s
      fun after _ => after.get .current = frame.get .current := by
  refine safe_branch trivial (fun _ => leads_setNull frame s) fun _ => ?_
  refine safe_copy trivial (safe_assign trivial fun _ _ _ => ?_)
  let inv (after : Frame) (_ : σ) : Prop :=
    after.slots.size = frame.slots.size ∧ after.get .current = frame.get .current
  refine safe_forEach inv trivial ⟨by simp, by grind⟩ (fun before s value hi => ?_)
    fun after s hi => safe_copy trivial (safe_nil_iff.2 ?_)
  · obtain ⟨hsize, hcur⟩ := hi
    have hc : Slot.current ∉ [(⟨m + 1⟩ : Slot)] := by simp [Slot.current]; omega
    rw [List.cons_append]
    refine safe_copy trivial (safe_append_iff.2 ?_)
    refine (ih.keeps (by omega) (by grind)).mono ?_
    rintro answered s ⟨hk, ha⟩
    have hinv : inv answered s := ⟨by grind, by grind⟩
    refine leads_when (leads_push fun after hp => safe_nil_iff.2 ⟨?_, ?_⟩) hinv
    · rw [hp.size, hinv.1]
    · rw [hp.get _ hc, hinv.2]
  · have := hi.2
    grind

/-- The code of a query that exposes no pipe keeps the current context. -/
theorem keepsCurrent (host : Host σ) (query : Query) (h : query.exposesPipe = false) :
    query.KeepsCurrent host := by
  induction query with
  | literal value | reference site node =>
    exact fun n frame s hn hs => safe_assign trivial fun _ _ _ => safe_nil_iff.2 (by grind)
  | field name =>
    intro n frame s hn hs
    refine safe_branch trivial (fun _ => ?_) fun _ => leads_setNull frame s
    exact safe_assign trivial fun _ _ _ => safe_nil_iff.2 (by grind)
  | index i =>
    intro n frame s hn hs
    refine safe_branch trivial (fun _ => ?_) fun _ => leads_setNull frame s
    rw [List.append_nil]
    exact leads_lowerIndex n hn i frame s
  | current => exact fun n frame s hn hs => safe_nil_iff.2 rfl
  | subexpression left right ihl ihr =>
    obtain ⟨hl, hr⟩ := Bool.or_eq_false_iff.1 h
    intro n frame s hn hs
    rw [width_subexpression] at hs
    rw [lower, Leads, safe_append_iff]
    refine ((ihl hl).keeps hn (by omega)).mono ?_
    rintro after s ⟨hk, hc⟩
    refine leads_when ((ihr hr _ after s (by omega) (by grind)).mono ?_) hc
    intro last _ hlast
    rw [hlast, hc]
  | pipe left right => cases h
  | or left right ihl ihr | and left right ihl ihr =>
    obtain ⟨hl, hr⟩ := Bool.or_eq_false_iff.1 h
    intro n frame s hn hs
    simp only [width_or, width_and] at hs
    rw [lower, lowerShortCircuit, List.cons_append]
    refine safe_copy trivial (safe_append_iff.2 ?_)
    refine ((ihl hl).keeps (by omega) (by grind)).mono ?_
    rintro after s ⟨hk, hc⟩
    refine leads_when (safe_copy trivial ?_) (by grind)
    refine (ihr hr _ _ s (by omega) (by grind)).mono fun last _ hlast => ?_
    grind
  | not query ih =>
    intro n frame s hn hs
    rw [width_not] at hs
    rw [lower, Leads, safe_append_iff]
    refine (ih h n frame s hn hs).mono fun after s hc => ?_
    exact safe_assign trivial fun _ _ _ => safe_nil_iff.2 (by grind)
  | flatten query ih =>
    intro n frame s hn hs
    rw [width_flatten] at hs
    rw [lower, Leads, safe_append_iff]
    refine (ih h n frame s hn (by omega)).mono fun after s hc => ?_
    refine (leads_lowerFlatten (by omega) after s).mono fun last _ hlast => ?_
    rw [hlast, hc]
  | projection source left right ihl ihr =>
    obtain ⟨hl, hr⟩ := Bool.or_eq_false_iff.1 h
    intro n frame s hn hs
    rw [width_projection] at hs
    rw [lower, Leads, safe_append_iff]
    refine ((ihl hl).keeps hn (by omega)).mono ?_
    rintro after s ⟨hk, hc⟩
    refine (leads_lowerProjection (ihr hr) (by omega) (by grind)).mono fun last _ hlast => ?_
    rw [hlast, hc]
  | comparator op left right =>
    intro n frame s hn hs
    rw [width_comparator] at hs
    simp only [lower, lowerSide, List.append_assoc, List.cons_append, List.nil_append]
    refine safe_copy trivial (safe_copy trivial (safe_append_iff.2 ?_))
    refine (left.leads_keeps _ _ s).mono fun after s hk => ?_
    refine safe_copy trivial (safe_copy trivial (safe_copy trivial (safe_append_iff.2 ?_)))
    refine (right.leads_keeps _ _ s).mono fun last s hk' => ?_
    have hcur : last.get ⟨n + 1⟩ = frame.get .current := by
      rw [hk'.get _ (by omega) (by omega)]
      have := hk.get (n + 1) (by omega) (by omega)
      grind
    refine safe_copy trivial (safe_assign trivial fun _ _ _ => ?_)
    refine safe_branch trivial (fun _ => ?_) fun _ => ?_
    · exact safe_copy trivial (safe_copy trivial (safe_nil_iff.2 (by grind)))
    · exact safe_assign trivial fun _ _ _ => safe_copy trivial (safe_nil_iff.2 (by grind))
  | list parts | hash parts =>
    intro n frame s hn hs
    simp only [width_list, width_hash] at hs
    refine leads_when ?_ rfl
    simp only [List.cons_append, lowerItems_eq, lowerEntries_eq]
    refine leads_collect hn (by omega) fun after s hsaved => ?_
    refine safe_copy trivial (safe_copy trivial (safe_nil_iff.2 ?_))
    grind [hsaved.size, hsaved.current]
  | call name args =>
    intro n frame s hn hs
    rw [width_call] at hs
    simp only [lower, List.cons_append, lowerItems_eq]
    refine leads_collect hn (by omega) fun after s hsaved => ?_
    refine safe_copy trivial (safe_assign trivial fun _ _ _ => safe_nil_iff.2 ?_)
    grind [hsaved.size, hsaved.current]
  | slice start stop step =>
    intro n frame s hn hs
    refine safe_assign trivial fun _ _ _ => safe_assign trivial fun _ _ _ => safe_nil_iff.2 ?_
    grind

end Query

/-! ## Where the parts start -/

/-- The frames have the same values in both registers. -/
structure Frame.SameRegisters (before after : Frame) : Prop where
  value : after.get .value = before.get .value
  current : after.get .current = before.get .current

namespace Query

open Stmt

section

variable {host : Host σ}

variable {query part left : Query} {n m : Nat} {gap : Gap} {code : List Stmt} {frame g : Frame}
  {s t : σ}

/-- Each of the queries whose answers are collected starts with the registers as they were saved. -/
theorem value_current_of_itemGap {empty : Expr} {members : List Member} {after : List Stmt}
    (hn : 2 ≤ n) (hs : n + 3 ≤ frame.slots.size)
    (hg : (itemGap n empty (lowerEach ⟨n⟩ ⟨n + 1⟩ ⟨n + 2⟩ (n + 3) members) after).Reached host code
      frame s g t) : frame.SameRegisters g := by
  cases hg with
  | here he =>
    suffices h : Leads host _ frame s fun after _ => frame.SameRegisters after from
      h.of_execAll he
    refine leads_collect hn hs fun after s hsaved => ?_
    refine safe_copy trivial (safe_copy trivial (safe_nil_iff.2 ⟨?_, ?_⟩))
    · grind [hsaved.size, hsaved.value]
    · grind [hsaved.size, hsaved.current]

/-- The parts of a comparison, a multi-select or a call start with the registers as the whole
found them. -/
theorem value_current_of_reached (hp : Part query n gap part m) (hi : query.isolates = true)
    (hn : 2 ≤ n) (hs : n + query.width ≤ frame.slots.size)
    (hg : gap.Reached host (part.lower m) frame s g t) :
    frame.SameRegisters g := by
  cases hp with
  | comparatorLeft op left right =>
    rw [width_comparator] at hs
    cases hg with
    | here he =>
      suffices h : Leads host _ frame s fun after _ => frame.SameRegisters after from
        h.of_execAll he
      exact safe_copy trivial (safe_copy trivial (safe_nil_iff.2 ⟨by grind, by grind⟩))
  | comparatorRight op left right =>
    rw [width_comparator] at hs
    cases hg with
    | here he =>
      suffices h : Leads host _ frame s fun after _ => frame.SameRegisters after from
        h.of_execAll he
      rw [List.cons_append, List.cons_append]
      refine safe_copy trivial (safe_copy trivial (safe_append_iff.2 ?_))
      refine (left.leads_keeps _ _ s).mono fun after s hk => ?_
      have hv := hk.get n (by omega) (by omega)
      have hc := hk.get (n + 1) (by omega) (by omega)
      refine safe_copy trivial (safe_copy trivial (safe_copy trivial (safe_nil_iff.2 ⟨?_, ?_⟩)))
      · grind
      · grind
  | item before item after | entry before key item after =>
    simp only [width_list, width_hash] at hs
    cases hg with
    | yes he _ hg =>
      cases he
      simp only [lowerItems_eq, lowerEntries_eq] at hg
      exact value_current_of_itemGap hn (by omega) hg
  | argument name before arg after =>
    rw [width_call] at hs
    simp only [lowerItems_eq] at hg
    exact value_current_of_itemGap hn (by omega) hg
  | shortCircuitLeft h | shortCircuitRight h =>
    cases h with
    | or | and => cases hi
  | _ => cases hi

/-- The right side of a pipe starts with the answer of the left side in both registers. -/
theorem result_of_pipeGap (hs : 2 ≤ frame.slots.size)
    (hg : (pipeGap left n).Reached host code frame s g t) :
    (execAll host (left.lower n) frame s).result = .ok (g.get .value) ∧
      g.get .current = g.get .value := by
  cases hg with
  | here he =>
    rw [execAll_append] at he
    have hsize := (left.keeps_lower host n frame s).size
    rcases hl : execAll host (left.lower n) frame s with ⟨after, u, _ | e⟩
    · rw [hl] at he hsize
      obtain rfl : after.set .current (after.get .value) = g := congrArg Outcome.frame he
      refine ⟨congrArg Except.ok ?_, ?_⟩
      · rw [after.get_set_of_ne (by decide)]
      · rw [after.get_set_self (by rw [hsize]; exact hs), after.get_set_of_ne (by decide)]
    · rw [hl] at he
      cases he

end

end Query

open Query Stmt in
/-- When a run of a node's code succeeds, the current context is what it was, provided that no pipe
is exposed. And wherever the run comes to a query inside, the parts of a comparison, a multi-select
or a call start with the registers as that construct found them, whatever ran before them in it; and
the right side of a pipe starts with the answer of the left side in both registers. -/
theorem current_discipline {node : Node} {depth : Nat} {query : Query}
    (hc : check depth node = .ok query) (site : Nat) (host : Host σ) {n : Nat} {frame : Frame}
    (hn : 2 ≤ n) (hs : n + (query.number site).width ≤ frame.slots.size) (s : σ) :
    (node.exposesPipe = false →
      (execAll host ((query.number site).lower n) frame s).error = none →
      (execAll host ((query.number site).lower n) frame s).frame.get .current =
        frame.get .current) ∧
    ∀ inner : Start σ, Comes host ⟨query.number site, n, frame, s⟩ inner →
      (∀ moment, Visits host inner.code inner.frame inner.state moment →
        Visits host ((query.number site).lower n) frame s moment) ∧
      (inner.query.isolates = true → ∀ gap part m g t, Part inner.query inner.slot gap part m →
        gap.Reached host (part.lower m) inner.frame inner.state g t →
        inner.frame.SameRegisters g) ∧
      ∀ left right g t, inner.query = .pipe left right →
        (pipeGap left inner.slot).Reached host (right.lower (inner.slot + left.width)) inner.frame
          inner.state g t →
        (execAll host (left.lower inner.slot) inner.frame inner.state).result =
          .ok (g.get .value) ∧ g.get .current = g.get .value := by
  refine ⟨fun hp => ?_, fun inner hi => ⟨fun _ => hi.visits, fun hiso gap part m g t hp hg => ?_,
    fun left right g t _ hg => ?_⟩⟩
  · have hq : (query.number site).exposesPipe = false := by
      rw [exposesPipe_number, exposesPipe_of_check hc hp]
    exact (keepsCurrent host _ hq n frame s hn hs).ends
  · have hroom := hi.room ⟨hn, hs⟩
    exact value_current_of_reached hp hiso hroom.two_le hroom.le_size hg
  · have hroom := hi.room ⟨hn, hs⟩
    have h2 := hroom.two_le
    have hsize := hroom.le_size
    exact result_of_pipeGap (by omega) hg

open Query Stmt in
/-- A list of two queries, of which the first moves the current context. -/
theorem current_discipline_list :
    let node : Node := .multiSelectList [.binary .pipe (.field "a") .current, .current]
    let pipe : Query := .pipe (.field "a") .current
    let query : Query := .list [pipe, .current]
    let doc : Value := .object [("a", .integer 1)]
    let top : Value := .string "top"
    let frame : Frame := ⟨#[doc, top, .null, .null, .null]⟩
    let first : Frame := ⟨#[doc, top, doc, top, .array []]⟩
    let moved : Frame := ⟨#[.integer 1, .integer 1, doc, top, .array []]⟩
    let second : Frame := ⟨#[doc, top, doc, top, .array [.integer 1]]⟩
    check 0 node = .ok query ∧ node.exposesPipe = false ∧
      (execAll .unbound (query.lower 2) frame ()).error = none ∧
      (execAll .unbound (query.lower 2) frame ()).frame.get .current = frame.get .current ∧
      (∃ gap, Part query 2 gap .current 5 ∧
        gap.Reached .unbound (lower 5 .current) frame () second ()) ∧
      frame.SameRegisters second ∧
      Comes .unbound ⟨query, 2, frame, ()⟩ ⟨pipe, 5, first, ()⟩ ∧
      (pipeGap (.field "a") 5).Reached .unbound (lower 5 .current) first () moved () ∧
      moved.get .current = moved.get .value := by
  intro node pipe query doc top frame first moved second
  have hc : check 0 node = .ok query := by cbv
  have hp : node.exposesPipe = false := by cbv
  have he : (execAll .unbound (query.lower 2) frame ()).error = none := by cbv
  have hfirst : Part query 2 _ pipe 5 := .item [] pipe [.current] 2
  have hsecond : Part query 2 _ .current 5 := .item [pipe] .current [] 2
  have h1 : execAll .unbound [.copy ⟨2⟩ .value, .copy ⟨3⟩ .current, .assign ⟨4⟩ (.list []),
      .copy .value ⟨2⟩, .copy .current ⟨3⟩] frame () = ⟨first, (), none⟩ := by cbv
  have h2 : execAll .unbound (.copy ⟨2⟩ .value :: .copy ⟨3⟩ .current :: .assign ⟨4⟩ (.list []) ::
      lowerItems ⟨2⟩ ⟨3⟩ ⟨4⟩ 5 [pipe] ++ [.copy .value ⟨2⟩, .copy .current ⟨3⟩]) frame () =
      ⟨second, (), none⟩ := by cbv
  have h3 : execAll .unbound (lower 5 (.field "a") ++ [.copy .current .value]) first () =
      ⟨moved, (), none⟩ := by cbv
  have hcomes : Comes .unbound ⟨query, 2, frame, ()⟩ ⟨pipe, 5, first, ()⟩ :=
    .part .self hfirst (.yes rfl rfl (.here h1))
  have hs : 2 + (query.number 0).width ≤ frame.slots.size := by cbv
  obtain ⟨hkept, hinner⟩ := current_discipline hc 0 .unbound (by decide) hs ()
  exact ⟨hc, hp, he, hkept hp he, ⟨_, hsecond, .yes rfl rfl (.here h2)⟩,
    (hinner _ .self).2.1 rfl _ _ _ _ _ hsecond (.yes rfl rfl (.here h2)), hcomes, .here h3,
    ((hinner _ hcomes).2.2 _ _ _ _ rfl (.here h3)).2⟩

end PathQuery
