import Mathlib
import PathQuery.Proofs.Readability
import PathQuery.Proofs.Relocation

/-!
# The listing of a compiled procedure

The code of a query that was made from a portable tree is readable (`Query.readable_of_check`), so
that what is known of readable code holds of compiled procedures: a listing determines its program
(`Procedure.same_program_of_source`), up to the numbers of expression references, which it does not
show (`Procedure.source_number`).
-/

namespace PathQuery

/-! ## Compiled code is readable -/

namespace Query

open Stmt (ReadableAll)

/-- The code of a query is readable, wherever its slots and the numbers of its expression references
start. -/
def Readable (query : Query) : Prop := ∀ k n, 2 ≤ n → ReadableAll ((query.number k).lower n)

theorem readableAll_append {first second : List Stmt} :
    ReadableAll (first ++ second) ↔ ReadableAll first ∧ ReadableAll second := by
  simp only [Stmt.readableAll_iff, List.forall_mem_append]

theorem temporary_ne_value {n : Nat} (h : 2 ≤ n) : (⟨n⟩ : Slot) ≠ .value := by
  intro heq
  have : n = 0 := congrArg Slot.index heq
  omega

attribute [local simp] number lower Stmt.Readable Stmt.ReadableAll Expr.Readable Test.Readable
  Test.Positive readableAll_append Stmt.copy Stmt.when setNull temporary_ne_value

theorem readable_literal {value : Value} (h : value.Portable) : (literal value).Readable := by
  intro k n _
  simp [h]

theorem readable_field (name : String) : (field name).Readable := by
  intro k n _
  simp [Value.Portable.null]

theorem readable_index {i : Int} (h : Value.Portable (.integer i)) : (index i).Readable := by
  intro k n _
  by_cases hi : i < 0 <;> simp [lowerIndex, hi, h, Value.Portable.null]

theorem readable_current : current.Readable := by
  intro k n _
  simp

theorem readable_reference (site : Nat) {node : Node} (h : node.Portable) :
    (reference site node).Readable := by
  intro k n _
  simp [h]

theorem readable_slice {start stop step : Option Int}
    (h : ∀ value ∈ bounds start stop step, value.Portable) : (slice start stop step).Readable := by
  intro k n hn
  refine ⟨⟨by simp [hn], fun value hm => ?_⟩, trivial, trivial⟩
  rcases List.mem_cons.1 hm with hm | hm
  · cases hm
  · obtain ⟨bound, hb, heq⟩ := List.mem_map.1 hm
    cases heq
    exact h _ hb

variable {query left right : Query}

theorem readable_not (h : query.Readable) : (not query).Readable := by
  intro k n hn
  simp [h k n hn]

theorem readable_flatten (h : query.Readable) : (flatten query).Readable := by
  intro k n hn
  have h1 : 2 ≤ n + (query.number k).width := by omega
  simp [lowerFlatten, lowerSplice, h k n hn, Value.Portable.null, h1]

theorem readable_subexpression (hl : left.Readable) (hr : right.Readable) :
    (subexpression left right).Readable := by
  intro k n hn
  simp [hl k n hn, hr (k + left.references) (n + (left.number k).width) (by omega)]

theorem readable_pipe (hl : left.Readable) (hr : right.Readable) : (pipe left right).Readable := by
  intro k n hn
  simp [hl k n hn, hr (k + left.references) (n + (left.number k).width) (by omega)]

theorem readable_shortCircuit {test : Test} (h : ShortCircuit query left right test)
    (hl : left.Readable) (hr : right.Readable) : query.Readable := by
  intro k n hn
  have htest : test.Readable := by cases h <;> simp
  rw [(h.number k).lower_eq]
  simp [-Test.Readable, lowerShortCircuit, htest, hl k (n + 1) (by omega),
    hr (k + left.references) (n + 1 + (left.number k).width) (by omega)]

theorem readable_projection (source : SourceKind) (hl : left.Readable) (hr : right.Readable) :
    (projection source left right).Readable := by
  intro k n hn
  have h1 : 2 ≤ n + (left.number k).width + 1 := by omega
  cases source <;> simp [lowerProjection, guard, hl k n hn, Value.Portable.null, h1,
    hr (k + left.references) (n + (left.number k).width + 3) (by omega)]

theorem readable_comparator (op : Comparator) (hl : left.Readable) (hr : right.Readable) :
    (comparator op left right).Readable := by
  intro k n hn
  simp [lowerSide, lowerComparison, Value.Portable.null, hl k (n + 5) (by omega),
    hr (k + left.references) (n + 5 + (left.number k).width) (by omega)]

theorem readable_lowerEach {members : List Member}
    (h : ∀ member ∈ members, member.query.Readable) (base baseCurrent target : Slot) (k n : Nat)
    (hn : 2 ≤ n) : ReadableAll (lowerEach base baseCurrent target n (numberEach k members)) := by
  induction members generalizing k n with
  | nil => trivial
  | cons member members ih =>
    obtain ⟨hmember, hmembers⟩ := List.forall_mem_cons.1 h
    have hrest := ih hmembers (k + member.query.references) (n + (member.query.number k).width)
      (by omega)
    obtain ⟨_ | key, query⟩ := member <;>
      simp [numberEach, lowerEach, Member.store, hmember k n hn, hrest]

theorem readable_list {items : List Query} (h : ∀ item ∈ items, item.Readable) :
    (list items).Readable := by
  intro k n hn
  have h2 : 2 ≤ n + 2 := by omega
  have hitems := @readable_lowerEach (items.map Member.ofItem) (List.forall_mem_map.2 h)
  simp [h2, lowerItems_eq, map_ofItem_numberAll, hitems _ _ _ k (n + 3) (by omega)]

theorem readable_hash {entries : List (String × Query)} (h : ∀ entry ∈ entries, entry.2.Readable) :
    (hash entries).Readable := by
  intro k n hn
  have h2 : 2 ≤ n + 2 := by omega
  have hentries := @readable_lowerEach (entries.map Member.ofEntry) (List.forall_mem_map.2 h)
  simp [h2, lowerEntries_eq, map_ofEntry_numberEntries, hentries _ _ _ k (n + 3) (by omega)]

theorem readable_call (name : String) {args : List Query} (h : ∀ arg ∈ args, arg.Readable) :
    (call name args).Readable := by
  intro k n hn
  have h2 : 2 ≤ n + 2 := by omega
  have hargs := @readable_lowerEach (args.map Member.ofItem) (List.forall_mem_map.2 h)
  simp [h2, lowerItems_eq, map_ofItem_numberAll, hargs _ _ _ k (n + 3) (by omega)]

/-- What the check makes of a portable node has readable code. -/
theorem readable_of_check {depth : Nat} {node : Node} {query : Query} (hp : node.Portable)
    (h : check depth node = .ok query) : query.Readable := by
  revert hp
  refine check_induction (motive := fun _ node query => node.Portable → query.Readable)
    ?literal ?field ?index ?slice ?current ?reference ?not ?flatten ?pair ?subexpression ?pipe ?or
    ?and ?projection ?comparator ?list ?hash ?call h
  case literal => exact fun _ hp => readable_literal (hp.value _ rfl)
  case field => exact fun _ _ => readable_field _
  case index => exact fun _ hp => readable_index (hp.value _ rfl)
  case slice =>
    intro _ _ _ _ _ _ _ hp
    cases hp.value _ rfl with
    | array hbounds => exact readable_slice hbounds
  case current => exact fun _ _ => readable_current
  case reference => exact fun _ hp => readable_reference 0 (hp.child _ (by simp))
  case not => exact fun _ hq hp => readable_not (hq (hp.child _ (by simp)))
  case flatten => exact fun _ hq hp => readable_flatten (hq (hp.child _ (by simp)))
  case pair => exact fun _ hq hp => hq (hp.child _ (by simp))
  case subexpression =>
    exact fun _ _ hl hr hp => readable_subexpression (hl (hp.child _ (by simp)))
      (hr (hp.child _ (by simp)))
  case pipe =>
    exact fun _ hl hr hp => readable_pipe (hl (hp.child _ (by simp))) (hr (hp.child _ (by simp)))
  case or =>
    exact fun _ hl hr hp => readable_shortCircuit (.or _ _) (hl (hp.child _ (by simp)))
      (hr (hp.child _ (by simp)))
  case and =>
    exact fun _ hl hr hp => readable_shortCircuit (.and _ _) (hl (hp.child _ (by simp)))
      (hr (hp.child _ (by simp)))
  case projection =>
    exact fun _ hl hr hp => readable_projection _ (hl (hp.child _ (by simp)))
      (hr (hp.child _ (by simp)))
  case comparator =>
    exact fun _ _ hl hr hp => readable_comparator _ (hl (hp.child _ (by simp)))
      (hr (hp.child _ (by simp)))
  case list =>
    intro _ _ _ _ _ _ hparts hp
    exact readable_list (forall_mem_of_forall₂ (forall₂_of_forall_mem hparts hp.child))
  case call =>
    intro _ name _ _ _ _ hparts hp
    exact readable_call name (forall_mem_of_forall₂ (forall₂_of_forall_mem hparts hp.child))
  case hash =>
    intro _ _ _ _ _ _ hparts hp
    exact readable_hash (forall_mem_of_forall₂_entryOf
      (forall₂_entryOf_of_forall_mem hparts fun pair hm _ => (hp.child pair hm).child))

end Query

/-! ## Listings do not show the numbers of expression references -/

section

variable {e : Nat → Nat} (slots : SlotNames)

theorem Expr.listing_move (expr : Expr) : (expr.move id e).listing slots = expr.listing slots := by
  cases expr with
  | element source index => simp only [Expr.move, Operand.move_id, id_eq]
  | list items => simp only [Expr.move, funext Operand.move_id, List.map_id']
  | _ => rfl

namespace Stmt

theorem stepsAll_moveAll_of {block : List Stmt}
    (h : ∀ stmt ∈ block, (stmt.move id e).steps slots = stmt.steps slots) :
    stepsAll slots (moveAll id e block) = stepsAll slots block := by
  induction block with
  | nil => rfl
  | cons stmt stmts ih =>
    obtain ⟨hstmt, hstmts⟩ := List.forall_mem_cons.1 h
    rw [moveAll, stepsAll, stepsAll, hstmt, ih hstmts]

theorem steps_move (stmt : Stmt) : (stmt.move id e).steps slots = stmt.steps slots := by
  induction stmt with
  | assign target expr => simp only [move, steps, Expr.listing_move, id_eq]
  | branch test yes no ihy ihn =>
    cases no with
    | nil => simp only [move, steps, Test.move_id, stepsAll_moveAll_of slots ihy, moveAll]
    | cons stmt stmts =>
      have hno := stepsAll_moveAll_of slots ihn
      rw [moveAll] at hno
      simp only [move, steps, Test.move_id, stepsAll_moveAll_of slots ihy, moveAll, hno]
  | forEach item source body ih => simp only [move, steps, stepsAll_moveAll_of slots ih, id_eq]
  | push _ _ | extend _ _ | insert _ _ _ => rfl

end Stmt

end

/-! ## Compiled procedures -/

namespace Procedure

/-- The body of a procedure with other numbers for its expression references. -/
theorem body_number (options : Options) (query : Query) {e : Nat → Nat} {k l : Nat}
    (h : ∀ i ∈ Stmt.sitesAll ((query.number k).lower 2), e i = i + l - k) :
    (ofQuery options (query.number l)).body =
      Stmt.moveAll id e (ofQuery options (query.number k)).body := by
  refine congrArg (List.cons _) ((Stmt.moveAll_congr h).trans (query.moveAll_lower ?_)).symm
  exact ⟨rfl, rfl, fun _ => rfl, fun i => by omega⟩

theorem slots_number (options : Options) (query : Query) (k l : Nat) :
    (ofQuery options (query.number l)).slots = (ofQuery options (query.number k)).slots := by
  simp only [ofQuery, Query.temporaries_number]

/-- So the listing is the same whatever the numbers are. -/
theorem source_number (options : Options) (query : Query) (k l : Nat) :
    (ofQuery options (query.number l)).source = (ofQuery options (query.number k)).source := by
  have hbody := body_number options query
    fun i (_ : i ∈ Stmt.sitesAll ((query.number k).lower 2)) => Eq.refl (i + l - k)
  have hsteps (slots : SlotNames) : Stmt.stepsAll slots (ofQuery options (query.number l)).body =
      Stmt.stepsAll slots (ofQuery options (query.number k)).body := by
    rw [hbody]
    exact Stmt.stepsAll_moveAll_of slots fun stmt _ => stmt.steps_move slots
  rw [source, source, Listing.render, Listing.render, Listing.steps, Listing.steps,
    slots_number options query k l, hsteps]
  rfl

variable {node : Node}

theorem readable_body (options : Options) {first : Nat} {query : Query} (hn : node.Portable)
    (hq : Query.ofNode first node = .ok query) :
    Stmt.ReadableAll (ofQuery options query).body := by
  obtain ⟨checked, hc, rfl⟩ := map_eq_ok hq
  exact ⟨trivial, Query.readable_of_check hn hc first 2 (by omega)⟩

variable {options : Options}

/-- The steps that write the front of a listing, up to the body. -/
def front (options : Options) : List Emitter.Step :=
  (Text.lines options.display).map (fun line => .emit ("// " ++ line)) ++
    [.emit ("fn " ++ options.name ++ "(interpreter, " ++ "value" ++ ") \x7b"), .indent]

theorem source_ofQuery (options : Options) (query : Query) :
    (ofQuery options query).source =
      ((Emitter.run {} (front options)).run
        (Stmt.stepsAll (ofQuery options query).slots (ofQuery options query).body ++
          [.emit ("return " ++ "value" ++ ";"), .outdent, .emit "\x7d"])).text := by
  rw [← Emitter.run_append, source, Listing.render, Listing.steps,
    (legible_slots options query).value, front]
  simp only [List.append_assoc, List.cons_append, List.nil_append]
  rfl

variable {query other : Query}

theorem isName_of_mem_slots {slot : Slot}
    (h : slot ∈ Stmt.slotsAll (ofQuery options query).body) :
    IsName ((ofQuery options query).slots.name slot).toList :=
  (legible_slots options query).isName_name (index_lt_length_slots h)

/-- Procedures with the same options and the same listing are read alike. -/
theorem forestAll_eq_of_source (hr : Stmt.ReadableAll (ofQuery options query).body)
    (ho : Stmt.ReadableAll (ofQuery options other).body)
    (h : (ofQuery options query).source = (ofQuery options other).source) :
    Stmt.forestAll (ofQuery options query).slots (ofQuery options query).body =
      Stmt.forestAll (ofQuery options other).slots (ofQuery options other).body := by
  have hreturn : Breaks ("return " ++ "value" ++ ";") [.word "return", .word "value", .mark ';'] :=
    fun _ => rfl
  have hclose : Breaks "\x7d" [.closing] := fun _ => rfl
  have hend := Spells.emit hreturn (Spells.emit hclose spells_nil).outdent
  have hquery := (Stmt.spells_stepsAll _ hr fun _ => isName_of_mem_slots).append hend
  have hother := (Stmt.spells_stepsAll _ ho fun _ => isName_of_mem_slots).append hend
  obtain ⟨out, htext, hout⟩ := hquery (Emitter.run {} (front options))
  obtain ⟨out', htext', hout'⟩ := hother (Emitter.run {} (front options))
  rw [source_ofQuery, source_ofQuery, htext, htext'] at h
  have hsame : out = out' := by
    rw [← String.toList_inj, String.toList_append, String.toList_append,
      List.append_cancel_left_eq] at h
    exact String.toList_inj.1 h
  have htokens := hout []
  rw [hsame, hout' [], List.append_cancel_right_eq, List.append_cancel_right_eq] at htokens
  exact (Tree.flatten_inj htokens).symm

end Procedure

/-! ## Runs of procedures with the same code -/

namespace Frame

theorem get_start_of_ne {size : Nat} {slot : Slot} (h : slot ≠ .value) (root : Value) :
    (start size root).get slot = .null := by
  have hi : Slot.value.index ≠ slot.index := fun hi => h (Slot.ext hi.symm)
  calc (start size root).get slot
      = (Frame.mk (Array.replicate size .null)).get slot := get_set_of_ne _ hi root
    _ = .null := by simp [get, Array.getD]

theorem agrees_start {slots others : SlotNames} (hs : slots.Legible) (ho : others.Legible)
    (root : Value) :
    (start slots.length root).Agrees (slots.Same others) (start others.length root) where
  get := by
    intro a b hab
    by_cases ha : a = .value
    · rw [ha, (hab.eq_value_iff hs ho).1 ha, get_start (Nat.zero_lt_of_lt hab.left_lt),
        get_start (Nat.zero_lt_of_lt hab.right_lt)]
    · have hb : b ≠ .value := fun hb => ha ((hab.eq_value_iff hs ho).2 hb)
      rw [get_start_of_ne ha, get_start_of_ne hb]
  left_lt hab := by
    rw [size_start]
    exact hab.left_lt
  right_lt hab := by
    rw [size_start]
    exact hab.right_lt

end Frame

namespace Procedure

variable {σ : Type} {node node' : Node} {options : Options} {first first' : Nat}
  {query other : Query} {e : Nat → Nat}

/-- Procedures with the same code up to the numbers of slots give the same results and leave the
host in the same state. -/
theorem call_eq_of_alikeAll
    (ha : Stmt.AlikeAll ((ofQuery options query).slots.Same (ofQuery options other).slots) Eq
      (ofQuery options query).body (ofQuery options other).body) (host : Host σ) (root : Value)
    (s : σ) :
    (ofQuery options query).call host root s = (ofQuery options other).call host root s := by
  have hp := legible_slots options query
  have hq := legible_slots options other
  have hlength (query : Query) : 0 < (ofQuery options query).slots.length := by
    rw [length_slots_ofQuery]
    omega
  have hrun := Stmt.execAll_agrees (SlotNames.biUnique_same hp hq) host ha
    (Frame.agrees_start hp hq root) s
  have hvalue := hrun.frame.get (hp.same_value hq (hlength query) (hlength other))
  simp only [call, run, Outcome.result, hrun.error, hrun.state, hvalue]

/-- Procedures of portable trees with the same listing have the same code, up to the numbers of
slots and of expression references. -/
theorem alikeAll_of_source (hn : node.Portable) (hn' : node'.Portable)
    (hq : Query.ofNode first node = .ok query) (ho : Query.ofNode first' node' = .ok other)
    (h : (ofQuery options query).source = (ofQuery options other).source) :
    Stmt.AlikeAll ((ofQuery options query).slots.Same (ofQuery options other).slots)
      (fun _ _ => True) (ofQuery options query).body (ofQuery options other).body := by
  have hread := readable_body options hn hq
  have hread' := readable_body options hn' ho
  exact Stmt.alikeAll_of_forestAll (legible_slots options query) (legible_slots options other)
    hread (fun _ => index_lt_length_slots) hread' (fun _ => index_lt_length_slots)
    (forestAll_eq_of_source hread hread' h)

theorem nodup_sites_body (hq : Query.ofNode first node = .ok query) :
    (Stmt.sitesAll (ofQuery options query).body).Nodup := by
  obtain ⟨checked, -, rfl⟩ := map_eq_ok hq
  exact checked.nodup_sites_lower first 2

/-- The results of two procedures whose code is the same once the expression references of the one
are exchanged for those of the other. -/
theorem call_of_exchanges (hn : node.renumber e = node) (hq : Query.ofNode first node = .ok query)
    (ho : Query.ofNode first' node' = .ok other)
    (he : Stmt.Exchanges e (ofQuery options query).body (ofQuery options other).body)
    (ha : Stmt.AlikeAll ((ofQuery options query).slots.Same (ofQuery options other).slots)
      (fun i j => e i = j) (ofQuery options query).body (ofQuery options other).body)
    {host : Host σ} {t : σ → σ} (hh : host.Respects e t) (root : Value) (s : σ) :
    (ofQuery options other).call host (root.renumber e) (t s) =
      (((ofQuery options query).call host root s).1.map (Value.renumber e),
        t ((ofQuery options query).call host root s).2) := by
  obtain ⟨checked, hc, rfl⟩ := map_eq_ok hq
  obtain ⟨checked', -, rfl⟩ := map_eq_ok ho
  have hsites : ∀ i ∈ Stmt.sitesAll ((checked.number first).lower 2), e i = i + first' - first :=
    Query.shift_of_sites he.sites
  -- the first procedure with the numbers of the second
  have hmoved := ha.move
  rw [← body_number options checked hsites, ← slots_number options checked first first'] at hmoved
  rw [← call_eq_of_alikeAll hmoved]
  have hfixed := Query.fixed_of_check hc hn first 2
  exact call_number hh options checked he.injective hsites hfixed root s

variable {p q : Procedure}

/-- The listing determines the program. Take procedures that were compiled with the same options,
from trees that were read from JSON, and that have the same listing. They have the same code, once
slots are replaced by their names and the expression references of the one by those of the other.
So they give the same results, make the same calls and leave the host in the same state, up to
whether an expression reference is one of the first procedure or the one in its place of the second:
for every root that holds none of these, and every host that takes no notice of which of them it is
handed. Where neither procedure has expression references it is so to the letter, for all roots and
hosts. -/
theorem same_program_of_source {json json' : Json} (hj : json.Valid) (hj' : json'.Valid)
    {node node' : Node} (hn : Node.ofJson json = .ok node) (hn' : Node.ofJson json' = .ok node')
    {options : Options} {first first' : Nat} (hp : compile node options first = .ok p)
    (hq : compile node' options first' = .ok q) (h : p.source = q.source) :
    (∃ e, Stmt.Exchanges e p.body q.body) ∧
    (∀ e, Stmt.Exchanges e p.body q.body →
      Stmt.AlikeAll (p.slots.Same q.slots) (fun i j => e i = j) p.body q.body ∧
      ∀ (σ : Type) (host : Host σ) (t : σ → σ), host.Respects e t →
      ∀ (root : Value) (s : σ), Stmt.Apart root.sites p.body q.body →
        q.call host root (t s) =
          ((p.call host root s).1.map (Value.renumber e), t (p.call host root s).2) ∧
        q.calls host root (t s) = (p.calls host root s).map (Call.renumber e)) ∧
    (Stmt.sitesAll p.body = Stmt.sitesAll q.body →
      Stmt.AlikeAll (p.slots.Same q.slots) Eq p.body q.body ∧
      ∀ (σ : Type) (host : Host σ) (root : Value) (s : σ),
        p.call host root s = q.call host root s ∧ p.calls host root s = q.calls host root s) := by
  have hportable := Node.portable_of_ofJson hj hn
  obtain ⟨query, hquery, rfl⟩ := compile_eq_ok hp
  obtain ⟨other, hother, rfl⟩ := compile_eq_ok hq
  have hcode := alikeAll_of_source hportable (Node.portable_of_ofJson hj' hn') hquery hother h
  refine ⟨?_, fun e he => ?_, fun hsites => ?_⟩
  · exact Stmt.exists_exchanges (nodup_sites_body hquery) (nodup_sites_body hother)
      (Stmt.length_sitesAll_of (fun _ _ _ ha => ha.length_sites) hcode)
  · have halike := hcode.of_sites he.sites
    refine ⟨halike, fun σ host t hh root s hroot => ?_⟩
    have hnode : node.renumber e = node := by
      refine Node.renumber_eq_self fun i hi => ?_
      rw [hportable.sites_eq_nil] at hi
      cases hi
    have hcall {τ : Type} {host : Host τ} {t : τ → τ} (hh : host.Respects e t) (s : τ) :=
      call_of_exchanges hnode hquery hother he halike hh root s
    simp only [he.renumber_eq_self hroot] at hcall
    refine ⟨hcall hh s, ?_⟩
    exact congrArg (fun reply => reply.2.2) (hcall hh.recording (s, []))
  · have halike := hcode.of_sites ((List.map_id _).trans hsites)
    exact ⟨halike, fun σ host root s => ⟨call_eq_of_alikeAll halike host root s, by
      rw [calls, calls, call_eq_of_alikeAll halike]⟩⟩

/-- Two trees with one listing, compiled one after the other: it shows neither how pipes were nested
nor that a part was a condition, nor which expression references the procedures make. -/
theorem same_program_of_source_pipes :
    let first : Node := .binary .or (.field "a\"b") (.literal (.float ⟨false, 1023, 0⟩))
    let second : Node := .functionCall "sort_by" [.current, .reference (.field "x")]
    let last (kind : Kind) : Node := .binary kind (.index (-1)) .current
    let node : Node := .binary .pipe (.binary .pipe first second) (last .condition)
    let node' : Node := .binary .pipe first (.binary .pipe second (last .subexpression))
    let row (n : Int) : Value := .object [("x", .integer n)]
    let root : Value := .object [("a\"b", .array [row 2, row 1])]
    let call (site : Nat) : Call :=
      ⟨"sort_by", [.array [row 2, row 1], .expref (.site site) (.field "x")]⟩
    node ≠ node' ∧ node.toJson.Valid ∧ node'.toJson.Valid ∧
      Node.ofJson node.toJson = .ok node ∧ Node.ofJson node'.toJson = .ok node' ∧
      ∃ p q, compile node {} 0 = .ok p ∧ compile node' {} 1 = .ok q ∧ p.source = q.source ∧
        Stmt.Exchanges (Equiv.swap 0 1) p.body q.body ∧
        Stmt.AlikeAll (p.slots.Same q.slots) (fun i j => Equiv.swap 0 1 i = j) p.body q.body ∧
        p.call .tracing root [] = (.ok (row 2), [call 0]) ∧
        q.call .tracing root [] = (.ok (row 2), [call 1]) := by
  intro first second last node node' row root call
  have hn : Node.ofJson node.toJson = .ok node := rfl
  have hn' : Node.ofJson node'.toJson = .ok node' := rfl
  have hj := ((Node.ofJson_toJson_iff node).1 hn).valid_toJson
  have hj' := ((Node.ofJson_toJson_iff node').1 hn').valid_toJson
  have hkinds : [Kind.pipe, .condition] ≠ [.or, .pipe] := by simp
  have hne : node ≠ node' := fun h =>
    hkinds (congrArg (fun node : Node => node.children.map Node.kind) h)
  let query : Query := .pipe (.pipe (.or (.field "a\"b") (.literal (.float ⟨false, 1023, 0⟩)))
    (.call "sort_by" [.current, .reference 0 (.field "x")])) (.subexpression (.index (-1)) .current)
  have hp : compile node {} 0 = .ok (ofQuery {} (query.number 0)) := by cbv
  have hq : compile node' {} 1 = .ok (ofQuery {} (query.number 1)) := by cbv
  have he : Stmt.Exchanges (Equiv.swap 0 1) (ofQuery {} (query.number 0)).body
      (ofQuery {} (query.number 1)).body := by
    refine ⟨Equiv.injective _, by decide +kernel, fun i hi hj => ?_⟩
    exact Equiv.swap_apply_of_ne_of_ne (fun h => hi (h ▸ .head _)) (fun h => hj (h ▸ .head _))
  have hsource := source_number {} query 1 0
  obtain ⟨-, hprogram, -⟩ := same_program_of_source hj hj' hn hn' hp hq hsource
  obtain ⟨halike, hruns⟩ := hprogram _ he
  have hcall : (ofQuery {} (query.number 0)).call .tracing root [] = (.ok (row 2), [call 0]) := by
    rw [call_of_compile hp]
    cbv
  have hcall' := (hruns _ _ _ (Host.respects_tracing _) root [] (List.forall_mem_nil _)).1
  rw [hcall] at hcall'
  exact ⟨hne, hj, hj', hn, hn', _, _, hp, hq, hsource, he, halike, hcall, hcall'⟩

/-- A tree that tells its own expression reference from others, compiled twice. The listings are the
same. But the reference that the first procedure makes is its own to the first procedure alone. -/
theorem listing_hides_references :
    let tell : Node := .binary .pipe (.multiSelectList [.current, .reference (.field "a")])
      (.binary .or (.comparator .equal (.index 0) (.index 1)) (.index 1))
    let made (n : Nat) : Value := .expref (.site n) (.field "a")
    tell.toJson.Valid ∧ Node.ofJson tell.toJson = .ok tell ∧
      ∃ p q, compile tell {} 0 = .ok p ∧ compile tell {} 1 = .ok q ∧ p.source = q.source ∧
        p.call Host.unbound (.integer 7) () = (.ok (made 0), ()) ∧
        p.call Host.unbound (made 0) () = (.ok (.array [made 0, made 0]), ()) ∧
        q.call Host.unbound (made 0) () = (.ok (made 1), ()) ∧
        p.call Host.unbound (made 0) () ≠ q.call Host.unbound (made 0) () := by
  intro tell made
  have hn : Node.ofJson tell.toJson = .ok tell := rfl
  have hj := ((Node.ofJson_toJson_iff tell).1 hn).valid_toJson
  let query : Query := .pipe (.list [.current, .reference 0 (.field "a")])
    (.or (.comparator .equal (.index 0) (.index 1)) (.index 1))
  have hp : compile tell {} 0 = .ok (ofQuery {} (query.number 0)) := by cbv
  have hq : compile tell {} 1 = .ok (ofQuery {} (query.number 1)) := by cbv
  have hown : (ofQuery {} (query.number 0)).call Host.unbound (made 0) () =
      (.ok (.array [made 0, made 0]), ()) := by
    rw [call_of_compile hp]
    cbv
  have hother : (ofQuery {} (query.number 1)).call Host.unbound (made 0) () =
      (.ok (made 1), ()) := by
    rw [call_of_compile hq]
    cbv
  refine ⟨hj, hn, _, _, hp, hq, source_number {} query 1 0, ?_, hown, hother, ?_⟩
  · rw [call_of_compile hp]
    cbv
  · rw [hown, hother]
    simp [made]

end Procedure

end PathQuery
