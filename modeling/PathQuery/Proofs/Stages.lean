import Mathlib
import PathQuery.Proofs.Defects
import PathQuery.Proofs.Parts
import PathQuery.Proofs.Relocation

/-!
# The code of a node at the stages of compilations

A compilation lowers a node at the stage that it has reached when it comes to the node:

* `Query.contains_of_place`: whatever tree a node stands in and on whatever level, the code of the
  tree holds the code of the node, and the temporaries of the node are in a row among its own;
* `Stage.lower_of_place`: that is the code of the node at a stage of the compilation of the tree,
  and the names of these temporaries are those that are issued for the node at this stage;
* `Stage.relocatable`: the code of a node is the same at any two stages, so a node inside a tree has
  the code that it has by itself, and the same runs. Both is so up to the numbers of slots and of
  expression references. Code that compares the reference it makes with another one can tell at
  which stage the other was made (`Stage.relocated_runs_differ`).
-/

namespace PathQuery

/-! ## Nodes inside a tree -/

namespace Query

open Stmt

/-- The code of a query whose temporaries start at slot `n` has a gap for the code of another, and
the temporaries of the other, from slot `m` on, are in a row among its own. -/
structure Contains (query : Query) (n : Nat) (part : Query) (m : Nat) : Prop where
  code : ∃ gap : Gap, gap.fill (part.lower m) = query.lower n
  temporaries : ∃ before after, query.temporaries = before ++ (part.temporaries ++ after) ∧
    m = n + before.length

theorem Contains.refl (query : Query) (n : Nat) : query.Contains n query n where
  code := ⟨.here [] [], by rw [Gap.fill, List.append_nil, List.nil_append]⟩
  temporaries := ⟨[], [], by rw [List.append_nil, List.nil_append], rfl⟩

theorem Contains.trans {query part inner : Query} {n m l : Nat} (h : query.Contains n part m)
    (h' : part.Contains m inner l) : query.Contains n inner l where
  code := by
    obtain ⟨outside, hquery⟩ := h.code
    obtain ⟨inside, hpart⟩ := h'.code
    exact ⟨inside.comp outside, by rw [Gap.fill_comp, hpart, hquery]⟩
  temporaries := by
    obtain ⟨before, after, hquery, rfl⟩ := h.temporaries
    obtain ⟨before', after', hpart, rfl⟩ := h'.temporaries
    refine ⟨before ++ before', after' ++ after, ?_, ?_⟩
    · simp only [hquery, hpart, List.append_assoc]
    · rw [List.length_append, Nat.add_assoc]

theorem Part.contains {query part : Query} {n m : Nat} {gap : Gap} (h : Part query n gap part m) :
    query.Contains n part m :=
  ⟨⟨gap, h.fill_eq⟩, h.temporaries_eq⟩

theorem exists_mem_of_forall₂ {α β : Type} {r : α → β → Prop} {as : List α} {bs : List β}
    (h : List.Forall₂ r as bs) {a : α} (ha : a ∈ as) : ∃ b ∈ bs, r a b := by
  induction h with
  | nil => cases ha
  | @cons _ b _ bs hr _ ih =>
    rcases List.mem_cons.1 ha with rfl | ha
    · exact ⟨b, List.mem_cons_self .., hr⟩
    · obtain ⟨b, hb, hr⟩ := ih ha
      exact ⟨b, List.mem_cons_of_mem _ hb, hr⟩

theorem mem_numberEach {members : List Member} {member : Member} (h : member ∈ members) (k : Nat) :
    ∃ l, ⟨member.key, member.query.number l⟩ ∈ numberEach k members := by
  induction members generalizing k with
  | nil => cases h
  | cons first members ih =>
    rcases List.mem_cons.1 h with rfl | h
    · exact ⟨k, List.mem_cons_self ..⟩
    · obtain ⟨l, hl⟩ := ih h (k + first.query.references)
      exact ⟨l, List.mem_cons_of_mem _ hl⟩

theorem numberAll_eq_append {items : List Query} {item : Query} (h : item ∈ items) (k : Nat) :
    ∃ l before after, numberAll k items = before ++ item.number l :: after := by
  obtain ⟨l, hl⟩ := mem_numberEach (List.mem_map_of_mem (f := Member.ofItem) h) k
  rw [← map_ofItem_numberAll] at hl
  obtain ⟨numbered, hmem, heq⟩ := List.mem_map.1 hl
  cases heq
  exact ⟨l, List.append_of_mem hmem⟩

theorem numberEntries_eq_append {entries : List (String × Query)} {entry : String × Query}
    (h : entry ∈ entries) (k : Nat) :
    ∃ l before after, numberEntries k entries = before ++ (entry.1, entry.2.number l) :: after := by
  obtain ⟨l, hl⟩ := mem_numberEach (List.mem_map_of_mem (f := Member.ofEntry) h) k
  rw [← map_ofEntry_numberEntries] at hl
  obtain ⟨⟨key, numbered⟩, hmem, heq⟩ := List.mem_map.1 hl
  obtain ⟨_, _⟩ := entry
  cases heq
  exact ⟨l, List.append_of_mem hmem⟩

/-- The code of a node that passes the check contains that of each of its operands. -/
theorem contains_of_operand {depth : Nat} {tree child : Node} {query : Query}
    (h : check depth tree = .ok query) (hc : child ∈ tree.operands) (k n : Nat) :
    ∃ part l m, check (depth + 1) child = .ok part ∧
      (query.number k).Contains n (part.number l) m := by
  cases construct_of_check h with
  | literal | field | index | slice | current | reference => cases hc
  | @not _ _ _ query hq =>
    cases List.mem_singleton.1 hc
    exact ⟨query, k, _, hq, (Part.not ..).contains⟩
  | @flatten _ _ _ query hq =>
    cases List.mem_singleton.1 hc
    exact ⟨query, k, _, hq, (Part.flatten ..).contains⟩
  | pair hq =>
    cases List.mem_singleton.1 hc
    exact ⟨query, k, n, hq, .refl ..⟩
  | @subexpression kind _ left right _ l r hk hl hr =>
    have hc : child ∈ [left, right] := by rcases hk with rfl | rfl <;> exact hc
    rcases List.mem_pair.1 hc with rfl | rfl
    · exact ⟨l, k, _, hl, (Part.subexpressionLeft ..).contains⟩
    · exact ⟨r, _, _, hr, (Part.subexpressionRight ..).contains⟩
  | @pipe _ _ _ _ l r hl hr =>
    rcases List.mem_pair.1 hc with rfl | rfl
    · exact ⟨l, k, _, hl, (Part.pipeLeft ..).contains⟩
    · exact ⟨r, _, _, hr, (Part.pipeRight ..).contains⟩
  | @or _ _ _ _ l r hl hr =>
    rcases List.mem_pair.1 hc with rfl | rfl
    · exact ⟨l, k, _, hl, (Part.shortCircuitLeft (.or ..) n).contains⟩
    · exact ⟨r, _, _, hr, (Part.shortCircuitRight (.or ..) n).contains⟩
  | @and _ _ _ _ l r hl hr =>
    rcases List.mem_pair.1 hc with rfl | rfl
    · exact ⟨l, k, _, hl, (Part.shortCircuitLeft (.and ..) n).contains⟩
    · exact ⟨r, _, _, hr, (Part.shortCircuitRight (.and ..) n).contains⟩
  | @projection _ _ _ _ l r hl hr =>
    rcases List.mem_pair.1 hc with rfl | rfl
    · exact ⟨l, k, _, hl, (Part.projectionLeft ..).contains⟩
    · exact ⟨r, _, _, hr, (Part.projectionRight ..).contains⟩
  | @comparator _ _ _ _ _ l r _ hl hr =>
    rcases List.mem_pair.1 hc with rfl | rfl
    · exact ⟨l, k, _, hl, (Part.comparatorLeft ..).contains⟩
    · exact ⟨r, _, _, hr, (Part.comparatorRight ..).contains⟩
  | list hitems =>
    obtain ⟨item, hmem, hitem⟩ := exists_mem_of_forall₂ hitems hc
    obtain ⟨l, before, after, hnumber⟩ := numberAll_eq_append hmem k
    rw [number, hnumber]
    exact ⟨item, l, _, hitem, (Part.item ..).contains⟩
  | hash hentries =>
    obtain ⟨pair, hpair, hc⟩ := List.mem_flatMap.1 hc
    obtain ⟨entry, hmem, _, _, rfl, hentry⟩ := exists_mem_of_forall₂ hentries hpair
    cases List.mem_singleton.1 hc
    obtain ⟨l, before, after, hnumber⟩ := numberEntries_eq_append hmem k
    rw [number, hnumber]
    exact ⟨entry.2, l, _, hentry, (Part.entry ..).contains⟩
  | call hargs =>
    obtain ⟨arg, hmem, harg⟩ := exists_mem_of_forall₂ hargs hc
    obtain ⟨l, before, after, hnumber⟩ := numberAll_eq_append hmem k
    rw [number, hnumber]
    exact ⟨arg, l, _, harg, (Part.argument ..).contains⟩

/-- The code of a tree contains that of each node inside it. -/
theorem contains_of_place {depth : Nat} {tree : Node} {query : Query}
    (h : check depth tree = .ok query) {level : Nat} {node : Node}
    (hp : .onLevel level node ∈ tree.places (depth + 1)) (k n : Nat) :
    ∃ above part l m, level = above + 1 ∧ check above node = .ok part ∧
      (query.number k).Contains n (part.number l) m := by
  induction tree using Node.operandInduction generalizing depth query k n with
  | step tree ih =>
    rcases Node.mem_places_cases hp with ⟨rfl, rfl⟩ | ⟨child, hc, hp⟩
    · exact ⟨depth, query, k, n, rfl, h, .refl ..⟩
    · obtain ⟨part, l, m, hpart, hcontains⟩ := contains_of_operand h hc k n
      obtain ⟨above, inner, l', m', hlevel, hinner, hrest⟩ := ih child hc hpart hp l m
      exact ⟨above, inner, l', m', hlevel, hinner, hcontains.trans hrest⟩

end Query

/-! ## Stages of a compilation -/

theorem Symbols.allocateAll_append (symbols : Symbols) (first second : List String) :
    symbols.allocateAll (first ++ second) =
      symbols.allocateAll first ++ (symbols.allocated first).allocateAll second := by
  induction first generalizing symbols with
  | nil => rfl
  | cons stem stems ih => exact congrArg (List.cons _) (ih _)

namespace Stage

open Stmt Procedure

variable {node : Node} {stage here there : Stage} {code code' : List Stmt}
  {names names' : SlotNames}

theorem lower_eq_ok (h : stage.lower node = .ok (code, names)) :
    ∃ query, Query.check stage.depth node = .ok query ∧
      code = (query.number stage.references).lower stage.slots ∧
      names = stage.symbols.allocateAll query.temporaries := by
  obtain ⟨query, hq, hmade⟩ := map_eq_ok h
  cases hmade
  exact ⟨query, hq, rfl, rfl⟩

/-- What a tree adds to a procedure holds, in one piece, what a node inside it adds at the stage
that the compilation has reached there: `stems` are those of the slots before, for which names were
issued already. -/
theorem lower_of_place {tree : Node} (h : stage.lower tree = .ok (code, names)) {level : Nat}
    (hp : .onLevel level node ∈ tree.places (stage.depth + 1)) :
    ∃ (inner : Stage) (stems : List String) (gap : Gap) (part : List Stmt) (own : SlotNames),
      level = inner.depth + 1 ∧
      inner.symbols = stage.symbols.allocated stems ∧
      inner.slots = stage.slots + stems.length ∧
      inner.lower node = .ok (part, own) ∧ code = gap.fill part ∧
      own <+: names.drop stems.length := by
  obtain ⟨query, hq, rfl, rfl⟩ := lower_eq_ok h
  obtain ⟨above, part, l, m, hlevel, hpart, hcontains⟩ :=
    Query.contains_of_place hq hp stage.references stage.slots
  obtain ⟨gap, hcode⟩ := hcontains.code
  obtain ⟨stems, after, hstems, rfl⟩ := hcontains.temporaries
  rw [Query.temporaries_number, Query.temporaries_number] at hstems
  refine ⟨⟨stage.symbols.allocated stems, stage.slots + stems.length, l, above⟩, stems, gap,
    (part.number l).lower (stage.slots + stems.length),
    (stage.symbols.allocated stems).allocateAll part.temporaries, hlevel, rfl, rfl, ?_,
    hcode.symm, ?_⟩
  · rw [lower, hpart]
    rfl
  · rw [hstems, Symbols.allocateAll_append, List.drop_left' (Symbols.length_allocateAll ..),
      Symbols.allocateAll_append]
    exact List.prefix_append ..

/-- At two stages one query is lowered. -/
theorem lower_both (h : here.lower node = .ok (code, names))
    (h' : there.lower node = .ok (code', names')) :
    ∃ query, Query.check here.depth node = .ok query ∧
      code = (query.number here.references).lower here.slots ∧
      code' = (query.number there.references).lower there.slots ∧
      names.length = query.width ∧ names'.length = query.width := by
  obtain ⟨query, hq, rfl, rfl⟩ := lower_eq_ok h
  obtain ⟨query', hq', rfl, rfl⟩ := lower_eq_ok h'
  cases Query.check_unique hq hq'
  exact ⟨query, hq, rfl, rfl, Symbols.length_allocateAll .., Symbols.length_allocateAll ..⟩

/-- The code of a node at one stage is its code at another, moved there. -/
theorem lower_moved (hm : 2 ≤ here.slots) (hn : 2 ≤ there.slots)
    (h : here.lower node = .ok (code, names)) (h' : there.lower node = .ok (code', names')) :
    code' = moveAll (Slot.shift here.slots there.slots)
      (fun i => i + there.references - here.references) code := by
  obtain ⟨query, -, rfl, rfl, -⟩ := lower_both h h'
  exact (Query.moveAll_lower query (Query.shifts_shift hm hn _ _)).symm

/-- Compiling a node lowers it at the start. -/
theorem start_lower_of_compile {options : Options} {first : Nat} {procedure : Procedure}
    (h : compile node options first = .ok procedure) :
    ∃ code names, (Stage.start first).lower node = .ok (code, names) ∧
      procedure.slots = "value" :: "current" :: names ∧
      procedure.body = .copy .current .value :: code := by
  rw [compile] at h
  split at h
  · obtain ⟨⟨code, names⟩, hlower, rfl⟩ := map_eq_ok h
    exact ⟨code, names, hlower, rfl, rfl⟩
  · cases h

/-- The code of a node stands, moved, in the body of every procedure that is compiled from a tree
with this node. -/
theorem moved_in_body (hm : 2 ≤ here.slots) (h : here.lower node = .ok (code, names))
    {tree : Node} {options : Options} {first : Nat} {procedure : Procedure}
    (hc : compile tree options first = .ok procedure) {level : Nat}
    (hp : .onLevel level node ∈ tree.places 1) :
    ∃ (inner : Stage) (gap : Gap) (part : List Stmt) (own : SlotNames),
      level = inner.depth + 1 ∧ inner.lower node = .ok (part, own) ∧
      part = moveAll (Slot.shift here.slots inner.slots)
        (fun i => i + inner.references - here.references) code ∧
      procedure.body = .copy .current .value :: gap.fill part ∧
      own <+: procedure.slots.drop inner.slots := by
  obtain ⟨whole, all, hwhole, hslots, hbody⟩ := start_lower_of_compile hc
  obtain ⟨inner, stems, gap, part, own, hlevel, -, hinner, hpart, rfl, hown⟩ :=
    lower_of_place hwhole hp
  have htwo : inner.slots = stems.length + 2 := hinner.trans (Nat.add_comm 2 _)
  refine ⟨inner, gap, part, own, hlevel, hpart, lower_moved hm (by omega) h hpart, hbody, ?_⟩
  rw [hslots, htwo]
  exact hown

theorem repeats (hm : 2 ≤ here.slots) (hn : 2 ≤ there.slots)
    (h : here.lower node = .ok (code, names)) (h' : there.lower node = .ok (code', names'))
    {e : Nat → Nat} (he : Function.Injective e)
    (hsites : ∀ i ∈ sitesAll code, e i = i + there.references - here.references)
    (hnode : node.renumber e = node) {σ : Type} {host : Host σ} {t : σ → σ}
    (hh : host.Respects e t) {f g : Frame} (hf : here.slots + names.length ≤ f.slots.size)
    (hg : there.slots + names.length ≤ g.slots.size)
    (hv : g.get .value = (f.get .value).renumber e)
    (hc : g.get .current = (f.get .current).renumber e) (s : σ) :
    Repeats host e t code code' f g s := by
  obtain ⟨query, hq, rfl, rfl, hwidth, -⟩ := lower_both h h'
  rw [hwidth] at hf hg
  exact query.repeats_lower hm hn he hsites (Query.fixed_of_check hq hnode _ _) hh hf hg hv hc s

/-- The code of a node at any two stages of a compilation. The node takes the same number of slots
at both, and the code at the one is the code at the other with its temporaries and the numbers of
its expression references shifted. Moved in this way it is the body of the procedure that the node
compiles to, behind the copy to `current`, and stands in the body of every procedure that is
compiled from a tree with this node, on whatever level.

From frames that hold the same in the registers the two run alike, whatever their temporaries hold:
they stop at the same error if at all, leave the same in the registers and make the same calls. That
is so to the letter where the expression references have the same numbers, or where there are none.
Elsewhere it is so up to these numbers, if the host takes no notice of them and if neither the
registers nor the node hold any of them to begin with. Registers that do hold some have to differ by
the same exchange of numbers. -/
theorem relocatable (hm : 2 ≤ here.slots) (hn : 2 ≤ there.slots)
    (h : here.lower node = .ok (code, names)) (h' : there.lower node = .ok (code', names')) :
    names'.length = names.length ∧
    code' = moveAll (Slot.shift here.slots there.slots)
      (fun i => i + there.references - here.references) code ∧
    (∀ options first procedure, compile node options first = .ok procedure →
      procedure.body = .copy .current .value ::
        moveAll (Slot.shift here.slots 2) (fun i => i + first - here.references) code) ∧
    (∀ tree options first procedure, compile tree options first = .ok procedure →
      ∀ level, .onLevel level node ∈ tree.places 1 →
      ∃ (inner : Stage) (gap : Gap) (part : List Stmt) (own : SlotNames),
        level = inner.depth + 1 ∧ inner.lower node = .ok (part, own) ∧
        part = moveAll (Slot.shift here.slots inner.slots)
          (fun i => i + inner.references - here.references) code ∧
        procedure.body = .copy .current .value :: gap.fill part ∧
        own <+: procedure.slots.drop inner.slots) ∧
    (sitesAll code = [] ∨ here.references = there.references →
      ∀ (σ : Type) (host : Host σ) (f g : Frame) (s : σ),
        here.slots + names.length ≤ f.slots.size → there.slots + names.length ≤ g.slots.size →
        g.get .value = f.get .value → g.get .current = f.get .current →
        (execAll host code' g s).error = (execAll host code f s).error ∧
        (execAll host code' g s).state = (execAll host code f s).state ∧
        (execAll host code' g s).frame.get .value = (execAll host code f s).frame.get .value ∧
        (execAll host code' g s).frame.get .current = (execAll host code f s).frame.get .current ∧
        calls host code' g s = calls host code f s) ∧
    (∃ e, Exchanges e code code') ∧
    (∀ e, Exchanges e code code' → Apart node.sites code code' →
      ∀ (σ : Type) (host : Host σ) (t : σ → σ), host.Respects e t →
      ∀ (f g : Frame) (s : σ),
        here.slots + names.length ≤ f.slots.size → there.slots + names.length ≤ g.slots.size →
        Apart (f.get .value).sites code code' → Apart (f.get .current).sites code code' →
        g.get .value = f.get .value → g.get .current = f.get .current →
        Repeats host e t code code' f g s) ∧
    ∀ e : Nat → Nat, Function.Injective e →
      (∀ i ∈ sitesAll code, e i = i + there.references - here.references) →
      node.renumber e = node →
      ∀ (σ : Type) (host : Host σ) (t : σ → σ), host.Respects e t →
      ∀ (f g : Frame) (s : σ),
        here.slots + names.length ≤ f.slots.size → there.slots + names.length ≤ g.slots.size →
        g.get .value = (f.get .value).renumber e → g.get .current = (f.get .current).renumber e →
        Repeats host e t code code' f g s := by
  refine ⟨?_, lower_moved hm hn h h', ?_, ?_, ?_, ?_, ?_, ?_⟩
  · obtain ⟨query, -, -, -, hwidth, hwidth'⟩ := lower_both h h'
    rw [hwidth, hwidth']
  · intro options first procedure hc
    obtain ⟨whole, all, hwhole, -, hbody⟩ := start_lower_of_compile hc
    rw [hbody, lower_moved hm (Nat.le_refl 2) h hwhole]
    rfl
  · intro tree options first procedure hc level hp
    exact moved_in_body hm h hc hp
  · intro hsame σ host f g s hf hg hv hc
    have hsites : ∀ i ∈ sitesAll code, id i = i + there.references - here.references := by
      intro i hi
      rcases hsame with hnil | href
      · rw [hnil] at hi
        cases hi
      · rw [href, Nat.add_sub_cancel, id_eq]
    have hrun := repeats hm hn h h' Function.injective_id hsites node.renumber_id host.respects_id
      hf hg (hv.trans (Value.renumber_id _).symm) (hc.trans (Value.renumber_id _).symm) s
    have hcall : Call.renumber id = id := funext Call.renumber_id
    exact ⟨hrun.error, hrun.state, hrun.value.trans (Value.renumber_id _),
      hrun.current.trans (Value.renumber_id _),
      hrun.calls.trans (by rw [hcall, List.map_id])⟩
  · obtain ⟨query, -, rfl, rfl, -⟩ := lower_both h h'
    refine exists_exchanges (query.nodup_sites_lower ..) (query.nodup_sites_lower ..) ?_
    rw [Query.sites_lower, Query.sites_lower, List.length_range', List.length_range']
  · intro e he hnode σ host t hh f g s hf hg hv hc hgv hgc
    have hsites : ∀ i ∈ sitesAll code, e i = i + there.references - here.references := by
      obtain ⟨query, -, rfl, rfl, -⟩ := lower_both h h'
      exact Query.shift_of_sites he.sites
    exact repeats hm hn h h' he.injective hsites (he.renumber_node_eq_self hnode) hh hf hg
      (hgv.trans (he.renumber_eq_self hv).symm) (hgc.trans (he.renumber_eq_self hc).symm) s
  · intro e he hsites hnode σ host t hh f g s hf hg hv hc
    exact repeats hm hn h h' he hsites hnode hh hf hg hv hc s

/-- A call that sorts by an expression reference, behind two slots and behind seven of which one has
the name of a temporary of the call, and as a part of a comparison. -/
theorem relocatable_reference :
    let node : Node := .functionCall "sort_by" [.current, .reference (.field "a")]
    let tree : Node := .comparator .equal (.field "b") (.binary .pipe node (.index 0))
    let query : Query := .call "sort_by" [.current, .reference 0 (.field "a")]
    let row (a : Int) : Value := .object [("a", .integer a)]
    let here : Stage := ⟨{}, 2, 0, 0⟩
    let there : Stage := ⟨⟨[("args", 1)], ["args"]⟩, 7, 4, 3⟩
    let code := (query.number 0).lower 2
    let code' := (query.number 4).lower 7
    let f : Frame := ⟨#[.array [row 2, row 1], .null, .null, .null, .null]⟩
    let g : Frame := ⟨#[.array [row 2, row 1], .null] ++ Array.replicate 8 (.string "stale")⟩
    here.lower node = .ok (code, ["base", "base_current", "args"]) ∧
      there.lower node = .ok (code', ["base", "base_current", "args1"]) ∧
      code' = moveAll (Slot.shift 2 7) (fun i => i + 4 - 0) code ∧
      compile node {} 9 = .ok (ofQuery {} (query.number 9)) ∧
      (ofQuery {} (query.number 9)).body =
        .copy .current .value :: moveAll (Slot.shift 2 2) (fun i => i + 9 - 0) code ∧
      (∃ (procedure : Procedure) (inner : Stage) (gap : Gap) (part : List Stmt) (own : SlotNames),
        compile tree {} = .ok procedure ∧ inner.depth = 2 ∧ inner.lower node = .ok (part, own) ∧
        procedure.body = .copy .current .value :: gap.fill part) ∧
      Repeats .tracing (· + 4) (List.map (Call.renumber (· + 4))) code code' f g [] ∧
      (execAll .tracing code f []).frame.get .value = .array [row 1, row 2] ∧
      (execAll .tracing code f []).state =
        [⟨"sort_by", [.array [row 2, row 1], .expref (.site 0) (.field "a")]⟩] := by
  intro node tree query row here there code code' f g
  have hhere : here.lower node = .ok (code, ["base", "base_current", "args"]) := by cbv
  have hthere : there.lower node = .ok (code', ["base", "base_current", "args1"]) := by cbv
  have hnode : compile node {} 9 = .ok (ofQuery {} (query.number 9)) := by cbv
  have htree : compile tree {} 0 = .ok (ofQuery {}
    ((Query.comparator .equal (.field "b") (.pipe query (.index 0))).number 0)) := by cbv
  have hplace : .onLevel 3 node ∈ tree.places 1 := .tail _ (.tail _ (.tail _ (.head _)))
  obtain ⟨-, hcode, hbody, hinside, -, -, -, hruns⟩ :=
    relocatable (by decide) (by decide) hhere hthere
  obtain ⟨inner, gap, part, own, hlevel, hpart, -, hinner, -⟩ := hinside tree {} 0 _ htree 3 hplace
  refine ⟨hhere, hthere, hcode, hnode, hbody {} 9 _ hnode,
    ⟨_, inner, gap, part, own, htree, (Nat.succ.inj hlevel).symm, hpart, hinner⟩, ?_, by cbv, by cbv⟩
  exact hruns (· + 4) (add_left_injective 4) (fun i _ => rfl) rfl Trace .tracing _
    (Host.respects_tracing (· + 4)) f g [] (by decide) (by decide) rfl rfl

/-- A tree that tells its own expression reference from others, as both operands of a pipe. From one
frame its code at the two stages runs to different results: the reference in the registers is the
one that the code of the left operand makes. A run of the whole pipe comes to that. -/
theorem relocated_runs_differ :
    let tell : Node := .binary .pipe (.multiSelectList [.current, .reference (.field "a")])
      (.binary .or (.comparator .equal (.index 0) (.index 1)) (.index 1))
    let query : Query := .pipe (.list [.current, .reference 0 (.field "a")])
      (.or (.comparator .equal (.index 0) (.index 1)) (.index 1))
    let made (n : Nat) : Value := .expref (.site n) (.field "a")
    let here : Stage := ⟨{}, 2, 0, 1⟩
    let there : Stage := ⟨{}, 11, 1, 1⟩
    let code := (query.number 0).lower 2
    let code' := (query.number 1).lower 11
    let frame : Frame := ⟨#[made 0, made 0] ++ Array.replicate 18 .null⟩
    (here.lower tell).map Prod.fst = .ok code ∧ (there.lower tell).map Prod.fst = .ok code' ∧
      (execAll Host.unbound code frame ()).frame.get .value = .array [made 0, made 0] ∧
      (execAll Host.unbound code' frame ()).frame.get .value = made 1 ∧
      (execAll Host.unbound code frame ()).frame.get .value ≠
        (execAll Host.unbound code' frame ()).frame.get .value ∧
      ((compile (.binary .pipe tell tell) {}).toOption.map fun procedure =>
        (procedure.call Host.unbound (.integer 1) ()).1) = some (.ok (made 1)) := by
  intro tell query made here there code code' frame
  have hown : (execAll Host.unbound code frame ()).frame.get .value =
      .array [made 0, made 0] := by cbv
  have hother : (execAll Host.unbound code' frame ()).frame.get .value = made 1 := by cbv
  refine ⟨by cbv, by cbv, hown, hother, ?_, by cbv⟩
  rw [hown, hother]
  simp [made]

end Stage

end PathQuery
