import Mathlib
import PathQuery.Proofs.Constructs
import PathQuery.Proofs.MovedCode

/-!
# Code in another place

The code of a query is the same wherever it stands, up to the numbers of its temporaries and of its
expression references:

* `Query.moveAll_lower`: the code in one place is the code in another, moved there;
* `Query.readsOnly_lower`: it reads nothing but the registers and what it has assigned itself;
* `Query.repeats_lower`: so its runs are the same in both places, from frames that agree on the
  registers;
* `Stmt.Exchanges`: the numbers of two blocks are exchanged and all others stay, so that values
  without any of them stay as they are.
-/

namespace PathQuery

variable {σ : Type} {p : Slot → Slot} {e : Nat → Nat} {t : σ → σ}

/-! ## Lowered code -/

namespace Query

/-- The slots from `m` on go to those from `n` on, the registers stay, and the numbers from `k` on
go to those from `l` on. -/
structure Shifts (p : Slot → Slot) (e : Nat → Nat) (m n k l : Nat) : Prop where
  value : p .value = .value
  current : p .current = .current
  slot : ∀ i, p ⟨m + i⟩ = ⟨n + i⟩
  site : ∀ i, e (k + i) = l + i

namespace Shifts

variable {m n k l : Nat}

theorem slots (h : Shifts p e m n k l) (width : Nat) : Shifts p e (m + width) (n + width) k l :=
  ⟨h.value, h.current, fun i => by simpa only [Nat.add_assoc] using h.slot (width + i), h.site⟩

theorem sites (h : Shifts p e m n k l) (references : Nat) :
    Shifts p e m n (k + references) (l + references) :=
  ⟨h.value, h.current, h.slot, fun i => by simpa only [Nat.add_assoc] using h.site (references + i)⟩

theorem first (h : Shifts p e m n k l) : p ⟨m⟩ = ⟨n⟩ := h.slot 0

end Shifts

section

open Stmt (moveAll moveAll_append)

attribute [local simp] Stmt.move Stmt.moveAll Stmt.moveAll_append Expr.move Operand.move Test.move
  Stmt.copy Stmt.when setNull width_number

theorem move_store (target : Slot) (member : Member) (query : Query) (hv : p .value = .value) :
    (member.store target).move p e = Member.store (p target) ⟨member.key, query⟩ := by
  obtain ⟨_ | key, _⟩ := member <;> simp [Member.store, hv]

theorem moveAll_lowerEach {members : List Member}
    (hm : ∀ member ∈ members, ∀ {m n k l}, Shifts p e m n k l →
      moveAll p e ((member.query.number k).lower m) = (member.query.number l).lower n)
    (base baseCurrent target : Slot) {m n k l : Nat} (h : Shifts p e m n k l) :
    moveAll p e (lowerEach base baseCurrent target m (numberEach k members)) =
      lowerEach (p base) (p baseCurrent) (p target) n (numberEach l members) := by
  induction members generalizing m n k l with
  | nil => rfl
  | cons member members ih =>
    obtain ⟨hmember, hmembers⟩ := List.forall_mem_cons.1 hm
    have hrest := ih hmembers ((h.slots member.query.width).sites member.query.references)
    have hstore := move_store (e := e) target ⟨member.key, member.query.number k⟩
      (member.query.number l) h.value
    simp [numberEach, lowerEach, h.value, h.current, hmember h, hrest, hstore]

/-- Code that was lowered to one place is, moved to another, the code that is lowered there. -/
theorem moveAll_lower (query : Query) {m n k l : Nat} (h : Shifts p e m n k l) :
    moveAll p e ((query.number k).lower m) = (query.number l).lower n := by
  induction query generalizing m n k l with
  | literal _ | field _ | current => simp [number, lower, h.value]
  | index i =>
    rw [number, number, lower, lower, lowerIndex, lowerIndex]
    split <;> simp [h.value, h.first]
  | subexpression left right ihl ihr | pipe left right ihl ihr =>
    have hr := ihr ((h.slots left.width).sites left.references)
    simp [number, lower, h.value, h.current, ihl h, hr]
  | or left right ihl ihr | and left right ihl ihr =>
    have hl := ihl (h.slots 1)
    have hr := ihr (((h.slots 1).slots left.width).sites left.references)
    simp [number, lower, lowerShortCircuit, h.value, h.first, hl, hr]
  | not query ih => simp [number, lower, h.value, ih h]
  | flatten query ih =>
    have hown := h.slots query.width
    simp [number, lower, lowerFlatten, lowerSplice, h.value, ih h, hown.first, hown.slot 1]
  | projection source left right ihl ihr =>
    have hown := h.slots left.width
    have hr := ihr ((hown.slots 3).sites left.references)
    have hguard : (guard source).move p = guard source := by
      cases source <;> simp [guard, h.value]
    simp [number, lower, lowerProjection, h.value, hguard, ihl h, hown.first, hown.slot 1,
      hown.slot 2, hr]
  | comparator op left right ihl ihr =>
    have hl := ihl (h.slots 5)
    have hr := ihr (((h.slots 5).slots left.width).sites left.references)
    simp [number, lower, lowerSide, lowerComparison, h.value, h.current, h.first, h.slot 1,
      h.slot 2, h.slot 3, h.slot 4, hl, hr]
  | list items ih | call _ items ih =>
    have hitems := @moveAll_lowerEach p e (items.map Member.ofItem) (List.forall_mem_map.2 ih)
      ⟨m⟩ ⟨m + 1⟩ ⟨m + 2⟩ _ _ _ _ (h.slots 3)
    simp [number, lower, lowerItems_eq, map_ofItem_numberAll, h.value, h.current, h.first,
      h.slot 1, h.slot 2, hitems]
  | hash entries ih =>
    have hentries := @moveAll_lowerEach p e (entries.map Member.ofEntry) (List.forall_mem_map.2 ih)
      ⟨m⟩ ⟨m + 1⟩ ⟨m + 2⟩ _ _ _ _ (h.slots 3)
    simp [number, lower, lowerEntries_eq, map_ofEntry_numberEntries, h.value, h.current, h.first,
      h.slot 1, h.slot 2, hentries]
  | slice start stop step => simp [number, lower, lowerSlice, bounds, h.value, h.first]
  | reference site node => simpa [number, lower, h.value] using h.site 0

end

section

open Stmt

attribute [local simp] ReadsOnly ReadsOnlyAll readsOnlyAll_append after mem_afterAll Test.slot
  Expr.slots Operand.slots Stmt.copy Stmt.when setNull

theorem readsOnly_lowerEach {members : List Member} {known : List Slot}
    (hm : ∀ member ∈ members, ∀ {known : List Slot}, .value ∈ known → .current ∈ known →
      ∀ n, ReadsOnlyAll known (member.query.lower n))
    {base baseCurrent target : Slot} (hv : .value ∈ known) (hc : .current ∈ known)
    (hb : base ∈ known) (hbc : baseCurrent ∈ known) (ht : target ∈ known) (n : Nat) :
    ReadsOnlyAll known (lowerEach base baseCurrent target n members) := by
  induction members generalizing known n with
  | nil => trivial
  | cons member members ih =>
    obtain ⟨hmember, hmembers⟩ := List.forall_mem_cons.1 hm
    obtain ⟨_ | key, query⟩ := member <;>
      simp [lowerEach, Member.store, hv, hc, hb, hbc, ht, hmember, ih hmembers]

/-- The code of a query reads nothing but the registers and what it has assigned itself. -/
theorem readsOnly_lower (query : Query) {known : List Slot} (hv : .value ∈ known)
    (hc : .current ∈ known) (n : Nat) : ReadsOnlyAll known (query.lower n) := by
  induction query generalizing known n with
  | literal _ | field _ | current | reference _ _ => simp [lower, hv]
  | index i =>
    rw [lower, lowerIndex]
    split <;> simp [hv]
  | subexpression left right ihl ihr | pipe left right ihl ihr | or left right ihl ihr
  | and left right ihl ihr => simp [lower, lowerShortCircuit, hv, hc, ihl, ihr]
  | not query ih => simp [lower, hv, hc, ih]
  | flatten query ih => simp [lower, lowerFlatten, lowerSplice, hv, hc, ih]
  | projection source left right ihl ihr =>
    have hguard : (guard source).slot = .value := by cases source <;> rfl
    simp [lower, lowerProjection, hguard, hv, hc, ihl, ihr]
  | comparator op left right ihl ihr =>
    simp [lower, lowerSide, lowerComparison, hv, hc, ihl, ihr]
  | list items ih | call _ items ih =>
    have hitems := @readsOnly_lowerEach (items.map Member.ofItem)
    simp [lower, lowerItems_eq, hv, hc, hitems (List.forall_mem_map.2 ih)]
  | hash entries ih =>
    have hentries := @readsOnly_lowerEach (entries.map Member.ofEntry)
    simp [lower, lowerEntries_eq, hv, hc, hentries (List.forall_mem_map.2 ih)]
  | slice start stop step => simp [lower, lowerSlice, bounds, hv]

end

section

open Stmt

attribute [local simp] Stmt.Fixed FixedAll fixedAll_append Expr.Fixed Operand.Fixed Value.renumber
  Stmt.copy Stmt.when setNull

theorem fixed_lowerEach {members : List Member}
    (hm : ∀ member ∈ members, ∀ k n, FixedAll e ((member.query.number k).lower n))
    (base baseCurrent target : Slot) (k n : Nat) :
    FixedAll e (lowerEach base baseCurrent target n (numberEach k members)) := by
  induction members generalizing k n with
  | nil => trivial
  | cons member members ih =>
    obtain ⟨hmember, hmembers⟩ := List.forall_mem_cons.1 hm
    obtain ⟨_ | key, query⟩ := member <;>
      simp [numberEach, lowerEach, Member.store, hmember, ih hmembers]

/-- The literals and references of lowered code come from the node. -/
theorem fixed_of_check {depth : Nat} {node : Node} {query : Query}
    (h : check depth node = .ok query) (hnode : node.renumber e = node) (k n : Nat) :
    FixedAll e ((query.number k).lower n) := by
  revert hnode k n
  refine check_induction (motive := fun _ node query => node.renumber e = node →
      ∀ k n, FixedAll e ((query.number k).lower n))
    ?literal ?field ?index ?slice ?current ?reference ?not ?flatten ?pair ?subexpression ?pipe ?or
    ?and ?projection ?comparator ?list ?hash ?call h
  case literal =>
    intro _ v _ _ _ hnode k n
    have hv := (Node.renumber_eq_self_iff.1 hnode).1
    simpa [number, lower] using hv
  case field | current =>
    intros
    simp [number, lower]
  case index =>
    intro _ i _ _ _ _ k n
    rw [number, lower, lowerIndex]
    split <;> simp
  case slice =>
    intro _ start stop step _ _ _ _ k n
    cases start <;> cases stop <;> cases step <;>
      simp [number, lower, lowerSlice, bounds, Value.ofInt?]
  case reference =>
    intro _ _ child _ _ hnode k n
    have hchild := Node.renumber_of_mem hnode (List.mem_singleton_self child)
    simpa [number, lower] using hchild
  case not | pair =>
    intro _ _ child _ _ _ hq hnode k n
    have hchild := Node.renumber_of_mem hnode (List.mem_singleton_self child)
    simp [number, lower, hq hchild]
  case flatten =>
    intro _ _ child _ _ _ hq hnode k n
    have hchild := Node.renumber_of_mem hnode (List.mem_singleton_self child)
    simp [number, lower, lowerFlatten, lowerSplice, hq hchild]
  case subexpression =>
    intro _ _ _ left right _ _ _ _ _ hl hr hnode k n
    obtain ⟨hleft, hright⟩ := by simpa using (Node.renumber_eq_self_iff.1 hnode).2
    simp [number, lower, hl hleft, hr hright]
  case pipe | or | and =>
    intro _ _ left right _ _ _ _ hl hr hnode k n
    obtain ⟨hleft, hright⟩ := by simpa using (Node.renumber_eq_self_iff.1 hnode).2
    simp [number, lower, lowerShortCircuit, hl hleft, hr hright]
  case projection =>
    intro _ _ left right _ _ _ _ hl hr hnode k n
    obtain ⟨hleft, hright⟩ := by simpa using (Node.renumber_eq_self_iff.1 hnode).2
    simp [number, lower, lowerProjection, hl hleft, hr hright]
  case comparator =>
    intro _ _ _ left right _ _ _ _ _ hl hr hnode k n
    obtain ⟨hleft, hright⟩ := by simpa using (Node.renumber_eq_self_iff.1 hnode).2
    simp [number, lower, lowerSide, lowerComparison, hl hleft, hr hright]
  case list | call =>
    intro _ _ _ _ items _ hparts hnode k n
    have hitems := forall_mem_of_forall₂
      (forall₂_of_forall_mem hparts fun _ => Node.renumber_of_mem hnode)
    have hfixed := @fixed_lowerEach e (items.map Member.ofItem) (List.forall_mem_map.2 hitems)
    simp [number, lower, lowerItems_eq, map_ofItem_numberAll, hfixed]
  case hash =>
    intro _ _ _ _ entries _ hparts hnode k n
    have hpairs := forall₂_entryOf_of_forall_mem hparts fun pair hm _ _ =>
      Node.renumber_of_mem (Node.renumber_of_mem hnode hm)
    have hfixed := @fixed_lowerEach e (entries.map Member.ofEntry)
      (List.forall_mem_map.2 (forall_mem_of_forall₂_entryOf hpairs))
    simp [number, lower, lowerEntries_eq, map_ofEntry_numberEntries, hfixed]

end

end Query

/-! ## Running lowered code in another place -/

/-- The slot `n - m` places further on, where a register stays what it is. -/
def Slot.shift (m n : Nat) (slot : Slot) : Slot :=
  if slot.index < 2 then slot else ⟨slot.index + n - m⟩

theorem Slot.index_shift (m n : Nat) (slot : Slot) :
    (slot.shift m n).index = if slot.index < 2 then slot.index else slot.index + n - m :=
  apply_ite Slot.index ..

theorem Slot.Within.lt_or_le {m top : Nat} {slot : Slot} (h : slot.Within m top) :
    slot.index < 2 ∨ m ≤ slot.index ∧ slot.index < top := by
  rcases h with rfl | rfl | h
  · exact .inl (by decide)
  · exact .inl (by decide)
  · exact .inr h

theorem Slot.injOn_shift {m n : Nat} (hm : 2 ≤ m) (hn : 2 ≤ n) (top : Nat) :
    Set.InjOn (Slot.shift m n) {slot | slot.Within m top} := by
  intro a ha b hb hab
  have hindex := congrArg Slot.index hab
  rw [index_shift, index_shift] at hindex
  have ha := Within.lt_or_le ha
  have hb := Within.lt_or_le hb
  refine Slot.ext ?_
  split at hindex <;> split at hindex <;> omega

theorem Query.shifts_shift {m n : Nat} (hm : 2 ≤ m) (hn : 2 ≤ n) (k l : Nat) :
    Shifts (Slot.shift m n) (fun i => i + l - k) m n k l where
  value := rfl
  current := rfl
  slot i := by
    rw [Slot.shift, if_neg (by simp only; omega)]
    exact congrArg Slot.mk (by simp only; omega)
  site i := by omega

namespace Stmt

/-- The run of the second block repeats that of the first under other numbers: it stops at the same
error if at all, ends with the same in the registers and in the state of the host, and makes the
same calls. -/
structure Repeats (host : Host σ) (e : Nat → Nat) (t : σ → σ) (block other : List Stmt)
    (f g : Frame) (s : σ) : Prop where
  error : (execAll host other g (t s)).error = (execAll host block f s).error
  state : (execAll host other g (t s)).state = t (execAll host block f s).state
  value : (execAll host other g (t s)).frame.get .value =
    ((execAll host block f s).frame.get .value).renumber e
  current : (execAll host other g (t s)).frame.get .current =
    ((execAll host block f s).frame.get .current).renumber e
  calls : calls host other g (t s) = (calls host block f s).map (Call.renumber e)

end Stmt

open Stmt in
/-- Lowered code repeats its runs wherever it stands, from frames that agree on the registers. What
the temporaries hold at the start does not matter. -/
theorem Query.repeats_lower (query : Query) {m n k l : Nat} (hm : 2 ≤ m) (hn : 2 ≤ n)
    (he : Function.Injective e)
    (hsites : ∀ i ∈ sitesAll ((query.number k).lower m), e i = i + l - k)
    (hfixed : FixedAll e ((query.number k).lower m))
    {host : Host σ} (hh : host.Respects e t) {f g : Frame} (hf : m + query.width ≤ f.slots.size)
    (hg : n + query.width ≤ g.slots.size) (hv : g.get .value = (f.get .value).renumber e)
    (hc : g.get .current = (f.get .current).renumber e) (s : σ) :
    Repeats host e t ((query.number k).lower m) ((query.number l).lower n) f g s := by
  have hmoved : moveAll (Slot.shift m n) e ((query.number k).lower m) =
      (query.number l).lower n :=
    (moveAll_congr hsites).trans (moveAll_lower query (shifts_shift hm hn k l))
  have huses : Uses m (m + query.width) ((query.number k).lower m) := by
    simpa only [width_number] using (query.number k).uses_lower m
  have hstart : f.Mirrors (Slot.shift m n) e (Slot.Within m (m + query.width)) [.value, .current]
      g := by
    refine ⟨by simpa using ⟨hv, hc⟩, by simp, fun slot hs => ?_, fun slot hs => ?_⟩
    · have hs := hs.lt_or_le
      omega
    · have hs := hs.lt_or_le
      rw [Slot.index_shift]
      split <;> omega
  have hreads : ReadsOnlyAll [.value, .current] ((query.number k).lower m) :=
    (query.number k).readsOnly_lower (by simp) (by simp) m
  -- for any host, since the calls are part of what the recording host ends with
  have hrun {τ : Type} {host : Host τ} {t : τ → τ} (hh : host.Respects e t) (s : τ) :=
    execAll_mirrors (Slot.injOn_shift hm hn _) he hh hreads huses hfixed hstart s
  rw [hmoved] at hrun
  have hend := hrun hh s
  exact ⟨hend.error, hend.state, hend.kept.get .value (by simp), hend.kept.get .current (by simp),
    congrArg Prod.snd (hrun hh.recording (s, [])).state⟩

/-! ## The numbers of two blocks -/

namespace Stmt

/-- The expression references of the first block get the numbers of those in the second, and numbers
that occur in neither stay. -/
structure Exchanges (e : Nat → Nat) (block other : List Stmt) : Prop where
  injective : Function.Injective e
  sites : (sitesAll block).map e = sitesAll other
  stays : ∀ i, i ∉ sitesAll block → i ∉ sitesAll other → e i = i

theorem exists_injective_map_eq {sites others : List Nat} (hs : sites.Nodup) (ho : others.Nodup)
    (h : sites.length = others.length) :
    ∃ e : Nat → Nat, Function.Injective e ∧ sites.map e = others ∧
      ∀ i, i ∉ sites → i ∉ others → e i = i := by
  induction sites generalizing others with
  | nil =>
    cases List.length_eq_zero_iff.1 h.symm
    exact ⟨id, Function.injective_id, rfl, fun _ _ _ => rfl⟩
  | cons site sites ih =>
    cases others with
    | nil => cases h
    | cons other others =>
      obtain ⟨hsite, hs⟩ := List.nodup_cons.1 hs
      obtain ⟨hother, ho⟩ := List.nodup_cons.1 ho
      obtain ⟨e, he, hmap, hstays⟩ := ih hs ho (Nat.succ.inj h)
      -- where `e` sends the first of the numbers and where it has to go are swapped
      refine ⟨Equiv.swap (e site) other ∘ e, (Equiv.injective _).comp he, ?_, fun i hi hj => ?_⟩
      · have hrest : sites.map (Equiv.swap (e site) other ∘ e) = sites.map e := by
          refine List.map_congr_left fun i hi => Equiv.swap_apply_of_ne_of_ne ?_ ?_
          · exact fun heq => hsite (he heq ▸ hi)
          · exact fun heq => hother (heq ▸ hmap ▸ List.mem_map_of_mem hi)
        rw [List.map_cons, Function.comp_apply, Equiv.swap_apply_left, hrest, hmap]
      · obtain ⟨hne, hi⟩ := List.ne_and_not_mem_of_not_mem_cons hi
        obtain ⟨hne', hj⟩ := List.ne_and_not_mem_of_not_mem_cons hj
        have hei := hstays i hi hj
        rw [Function.comp_apply, hei, Equiv.swap_apply_of_ne_of_ne ?_ hne']
        exact fun heq => hne (he (hei.trans heq))

/-- Blocks with as many expression references, no two of which have one number, can exchange their
numbers. -/
theorem exists_exchanges {block other : List Stmt} (hb : (sitesAll block).Nodup)
    (ho : (sitesAll other).Nodup) (h : (sitesAll block).length = (sitesAll other).length) :
    ∃ e, Exchanges e block other := by
  obtain ⟨e, he, hmap, hstays⟩ := exists_injective_map_eq hb ho h
  exact ⟨e, he, hmap, hstays⟩

/-- None of the numbers is that of an expression reference in either block. -/
def Apart (sites : List Nat) (block other : List Stmt) : Prop :=
  ∀ i ∈ sites, i ∉ sitesAll block ∧ i ∉ sitesAll other

namespace Exchanges

variable {block other : List Stmt}

theorem renumber_eq_self (h : Exchanges e block other) {value : Value}
    (hv : Apart value.sites block other) : value.renumber e = value :=
  Value.renumber_eq_self fun i hi => h.stays i (hv i hi).1 (hv i hi).2

theorem renumber_node_eq_self (h : Exchanges e block other) {node : Node}
    (hn : Apart node.sites block other) : node.renumber e = node :=
  Node.renumber_eq_self fun i hi => h.stays i (hn i hi).1 (hn i hi).2

end Exchanges

end Stmt

namespace Query

open Stmt

theorem nodup_sites_lower (query : Query) (k n : Nat) :
    (sitesAll ((query.number k).lower n)).Nodup := by
  rw [sites_lower]
  exact List.nodup_range'

/-- The expression references of two queries stand in the order of their numbers, so the numbers of
the one are those of the other, shifted. -/
theorem shift_of_sites {query other : Query} {m n k l : Nat}
    (h : (sitesAll ((query.number k).lower m)).map e = sitesAll ((other.number l).lower n)) :
    ∀ i ∈ sitesAll ((query.number k).lower m), e i = i + l - k := by
  rw [sites_lower, sites_lower] at h
  rw [sites_lower]
  have hlength : query.references = other.references := by simpa using congrArg List.length h
  have hshift : List.range' l other.references =
      (List.range' k query.references).map fun i => i + l - k := by
    refine List.ext_getElem (by simp [hlength]) fun i _ _ => ?_
    simp only [List.getElem_map, List.getElem_range']
    omega
  exact List.map_inj_left.1 (h.trans hshift)

end Query

namespace Procedure

/-- A procedure whose expression references have other numbers gives the same results, up to these
numbers. -/
theorem call_number {host : Host σ} (hh : host.Respects e t) (options : Options) (query : Query)
    {k l : Nat} (he : Function.Injective e)
    (hsites : ∀ i ∈ Stmt.sitesAll ((query.number k).lower 2), e i = i + l - k)
    (hfixed : Stmt.FixedAll e ((query.number k).lower 2)) (root : Value) (s : σ) :
    (ofQuery options (query.number l)).call host (root.renumber e) (t s) =
      (((ofQuery options (query.number k)).call host root s).1.map (Value.renumber e),
        t ((ofQuery options (query.number k)).call host root s).2) := by
  have hsize (k : Nat) : (ofQuery options (query.number k)).slots.length = 2 + query.width := by
    rw [length_slots_ofQuery, Query.width_number]
  have hrun (k : Nat) (root : Value) (s : σ) : (ofQuery options (query.number k)).run host root s =
      Stmt.execAll host ((query.number k).lower 2)
        ((Frame.start (2 + query.width) root).set .current root) s := by
    rw [run, hsize, ofQuery, Stmt.execAll_copy, Frame.get_start (by omega)]
  have hroom (root : Value) : 2 + query.width ≤
      ((Frame.start (2 + query.width) root).set .current root).slots.size := by
    rw [Frame.size_set, Frame.size_start]
  have hvalue (root : Value) :
      ((Frame.start (2 + query.width) root).set .current root).get .value = root := by
    rw [Frame.get_set_of_ne _ (by decide), Frame.get_start (by omega)]
  have hcurrent (root : Value) :
      ((Frame.start (2 + query.width) root).set .current root).get .current = root :=
    Frame.get_set_self _ (by rw [Frame.size_start]; simp only [Slot.index_current]; omega) root
  have hrepeats := query.repeats_lower (le_refl 2) (le_refl 2) he hsites hfixed hh (hroom root)
    (hroom (root.renumber e)) (by rw [hvalue, hvalue]) (by rw [hcurrent, hcurrent]) s
  simp only [call, hrun, Outcome.result, hrepeats.error, hrepeats.state, hrepeats.value]
  cases (Stmt.execAll host ((query.number k).lower 2)
    ((Frame.start (2 + query.width) root).set .current root) s).error <;> rfl

end Procedure

end PathQuery
