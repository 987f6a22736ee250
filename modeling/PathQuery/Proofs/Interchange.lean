import Mathlib
import PathQuery.Proofs.Checked
import PathQuery.Proofs.Spelling

/-!
# Reading back what was written

A node that is written to JSON and read again comes back as it was, unless it holds something that
the interchange form has no words for:

* `Value.Portable`, `Node.Portable`: what can be written without loss;
* `Value.ofJson_toJson_iff`, `Node.ofJson_toJson_iff`: exactly that comes back as it was;
* `Node.portable_of_ofJson`: what was read can be written without loss, because a JSON value holds
  finite numbers only, and an integer of it that is too long for a node is rounded to a finite one;
* `Node.interchange`: all of this together.
-/

namespace PathQuery

/-! ## Integers that are rounded -/

namespace Binary64

theorem isFinite_ofRank {negative : Bool} {rank : Nat} (h : rank < 2047 * 0x10000000000000) :
    (ofRank negative rank).isFinite = true := by
  have hr : min rank (2047 * 0x10000000000000) = rank := Nat.min_eq_left (Nat.le_of_lt h)
  have he : rank / 0x10000000000000 % 2048 < 2047 := by omega
  rw [isFinite, ofRank, hr, decide_eq_true_eq]
  exact he

theorem roundDiv_le {num den bound : Nat} (hd : 0 < den) (h : num ≤ den * bound) :
    roundDiv num den ≤ bound := by
  have hle : num / den ≤ bound := Nat.div_le_of_le_mul h
  have hmod := Nat.div_add_mod num den
  rw [roundDiv]
  rcases Nat.lt_or_eq_of_le hle with hlt | heq
  · split <;> omega
  · have hz : num % den = 0 := by rw [heq] at hmod; omega
    have hc : compare (2 * (num % den)) den = .lt := by rw [hz]; exact Nat.compare_eq_lt.2 hd
    rw [hc]
    exact hle

theorem magnitude_one {n : Nat} (h : n ≠ 0) : magnitude n 1 = n.log2 := by
  have hp : Nat.pow 2 n.log2 ≤ n := Nat.log2_self_le h
  have h1 : Nat.log2 1 = 0 := by decide
  simp only [magnitude, h1, Int.natCast_zero, Int.sub_zero, Int.toNat_natCast, Nat.one_mul]
  rw [if_pos]
  exact Nat.le_trans hp (Nat.le_mul_of_pos_right n (Nat.pow_pos (by decide)))

/-- The integers that a JSON text can spell are far from the end of the range. -/
theorem isFinite_ofInt {n : Int} (h : n.natAbs < 2 ^ 64) : (ofInt n).isFinite = true := by
  unfold ofInt ofRatio
  split
  · exact isFinite_ofRank (by decide)
  · next h0 =>
    have hlog : n.natAbs.log2 < 64 := (Nat.log2_lt h0).2 h
    have hupper : n.natAbs ≤ 2 ^ (n.natAbs.log2 + 1) := Nat.le_of_lt Nat.lt_log2_self
    rw [magnitude_one h0]
    generalize n.natAbs.log2 = l at hlog hupper ⊢
    have hscale : max ((l : Int) - 52) (-1074) = l - 52 := by omega
    have hround : roundDiv (n.natAbs * Nat.pow 2 (-((l : Int) - 52)).toNat)
        (1 * Nat.pow 2 ((l : Int) - 52).toNat) ≤ 2 ^ 53 := by
      refine roundDiv_le (Nat.mul_pos (by decide) (Nat.pow_pos (by decide))) ?_
      calc n.natAbs * 2 ^ (-((l : Int) - 52)).toNat
          ≤ 2 ^ (l + 1) * 2 ^ (-((l : Int) - 52)).toNat := Nat.mul_le_mul_right _ hupper
        _ = 1 * 2 ^ ((l : Int) - 52).toNat * 2 ^ 53 := by
            rw [Nat.one_mul, ← Nat.pow_add, ← Nat.pow_add]
            congr 1
            omega
    refine isFinite_ofRank ?_
    rw [hscale]
    omega

end Binary64

/-! ## Values -/

/-- JSON has a form for the value: it has no expression reference in it, its floats are finite, and
its integers are held in 64 bits. -/
inductive Value.Portable : Value → Prop
  | null : Portable .null
  | boolean (b : Bool) : Portable (.boolean b)
  | integer {n : Int} : fits n = true → Portable (.integer n)
  | float {x : Binary64} : x.isFinite = true → Portable (.float x)
  | string (s : String) : Portable (.string s)
  | array {items : List Value} : (∀ item ∈ items, Portable item) → Portable (.array items)
  | object {entries : List (String × Value)} : (∀ entry ∈ entries, Portable entry.2) →
    Portable (.object entries)

namespace Value

theorem toJsonItems_eq_map (items : List Value) : toJsonItems items = items.map toJson := by
  induction items with
  | nil => rfl
  | cons item items ih => rw [toJsonItems, ih, List.map_cons]

theorem ofJsonItems_eq_map (items : List Json) : ofJsonItems items = items.map ofJson := by
  induction items with
  | nil => rfl
  | cons item items ih => rw [ofJsonItems, ih, List.map_cons]

theorem toJsonEntries_eq_map (entries : List (String × Value)) :
    toJsonEntries entries = entries.map fun entry => (entry.1, entry.2.toJson) := by
  induction entries with
  | nil => rfl
  | cons entry entries ih => rw [toJsonEntries, ih, List.map_cons]

theorem ofJsonMembers_eq_map (members : List (String × Json)) :
    ofJsonMembers members = members.map fun member => (member.1, ofJson member.2) := by
  induction members with
  | nil => rfl
  | cons member members ih => rw [ofJsonMembers, ih, List.map_cons]

theorem map_eq_self_iff {α : Type} {f : α → α} {items : List α} :
    items.map f = items ↔ ∀ item ∈ items, f item = item := by
  have h : items.map f = items.map id ↔ ∀ item ∈ items, f item = id item := List.map_inj_left
  rwa [List.map_id] at h

/-- A value comes back from JSON as it was just if JSON has a form for it. -/
theorem ofJson_toJson_iff (value : Value) : ofJson value.toJson = value ↔ value.Portable := by
  induction value with
  | null => exact ⟨fun _ => .null, fun _ => rfl⟩
  | boolean b => exact ⟨fun _ => .boolean b, fun _ => rfl⟩
  | string s => exact ⟨fun _ => .string s, fun _ => rfl⟩
  | integer n =>
    rw [toJson, ofJson]
    split
    · next h => exact ⟨fun _ => .integer h, fun _ => rfl⟩
    · next h =>
      constructor
      · intro he
        cases he
      · rintro ⟨⟩
        contradiction
  | float x =>
    rw [toJson]
    split
    · next h => exact ⟨fun _ => .float h, fun _ => rfl⟩
    · next h =>
      constructor
      · intro he
        cases he
      · rintro ⟨⟩
        contradiction
  | array items ih =>
    rw [toJson, ofJson, toJsonItems_eq_map, ofJsonItems_eq_map, List.map_map, array.injEq,
      map_eq_self_iff]
    constructor
    · exact fun h => .array fun item hm => (ih item hm).1 (h item hm)
    · rintro ⟨⟩
      rename_i h
      exact fun item hm => (ih item hm).2 (h item hm)
  | object entries ih =>
    rw [toJson, ofJson, toJsonEntries_eq_map, ofJsonMembers_eq_map, List.map_map, object.injEq,
      map_eq_self_iff]
    constructor
    · exact fun h => .object fun entry hm => (ih entry hm).1 (congrArg Prod.snd (h entry hm))
    · rintro ⟨⟩
      rename_i h
      exact fun entry hm => Prod.ext rfl ((ih entry hm).2 (h entry hm))
  | expref origin node =>
    constructor
    · intro he
      cases he
    · rintro ⟨⟩

theorem portable_ofJson {json : Json} (h : json.Valid) : (ofJson json).Portable := by
  induction h with
  | null => exact .null
  | bool b => exact .boolean b
  | string s => exact .string s
  | float h => exact .float h
  | @integer n hl hu =>
    rw [ofJson]
    split
    · next hf => exact .integer hf
    · exact .float (Binary64.isFinite_ofInt (by omega))
  | array _ ih =>
    rw [ofJson, ofJsonItems_eq_map]
    exact .array (List.forall_mem_map.2 ih)
  | object _ ih =>
    rw [ofJson, ofJsonMembers_eq_map]
    exact .object (List.forall_mem_map.2 ih)

end Value

/-! ## Nodes -/

theorem mem_of_lookup_eq_some {α : Type} {key : String} {a : α} {entries : List (String × α)}
    (h : entries.lookup key = some a) : (key, a) ∈ entries := by
  obtain ⟨before, after, rfl, -⟩ := List.lookup_eq_some_iff.1 h
  simp

namespace Kind

theorem mem_known_or (kind : Kind) : kind ∈ known ∨ ∃ name, kind = .unknown name := by
  cases kind with
  | unknown name => exact .inr ⟨name, rfl⟩
  | _ => exact .inl (by decide)

/-- Each kind with a rule of its own is found under its canonical name. -/
theorem ofName_name {kind : Kind} (h : kind ∈ known) : ofName kind.name = kind := by
  have hall : ∀ kind ∈ known, spellings.lookup (underscored kind.name) = some kind := by decide
  rw [ofName, hall kind h, Option.getD_some]

/-- A name spells a kind with a rule of its own, or it is kept as it was written. -/
theorem ofName_mem_known_or (name : String) :
    ofName name ∈ known ∨ ofName name = .unknown name := by
  rw [ofName]
  cases hl : spellings.lookup (underscored name) with
  | none => exact .inr rfl
  | some kind =>
    left
    have hall : ∀ spelling ∈ spellings, spelling.2 ∈ known := by decide
    exact hall (underscored name, kind) (mem_of_lookup_eq_some hl)

theorem ofName_not_mem_known {name other : String} (h : ofName name = .unknown other) :
    ofName other ∉ known := by
  have hother : unknown other ∉ known := by simp [known]
  rcases ofName_mem_known_or name with hk | hn
  · exact absurd (h ▸ hk) hother
  · cases hn.symm.trans h
    rwa [hn]

/-- A kind is found under its canonical name, unless it is a name that spells another. -/
theorem ofName_name_iff {kind : Kind} :
    ofName kind.name = kind ↔ ∀ name, kind = .unknown name → ofName name ∉ known := by
  constructor
  · rintro h name rfl
    rw [show ofName name = .unknown name from h]
    simp [known]
  · intro h
    rcases mem_known_or kind with hk | ⟨name, rfl⟩
    · exact ofName_name hk
    · exact (ofName_mem_known_or name).resolve_left (h name rfl)

end Kind

theorem SourceKind.ofName?_name (source : SourceKind) : ofName? source.name = some source := by
  cases source <;> decide

/-- The interchange form has words for the node: at every node in it, a name that is kept as it was
written spells no kind, a slice has no children, and the value is portable. -/
inductive Node.Portable : Node → Prop
  | mk {kind : Kind} {value : Option Value} {children : List Node} {source : Option SourceKind} :
    (∀ name, kind = .unknown name → Kind.ofName name ∉ Kind.known) →
    (kind = .slice → children = []) →
    (∀ v, value = some v → v.Portable) →
    (∀ child ∈ children, Portable child) →
    Portable ⟨kind, value, children, source⟩

namespace Node

theorem Portable.value {node : Node} (h : node.Portable) (v : Value) (hv : node.value = some v) :
    v.Portable := by
  cases h with
  | mk _ _ hvalue _ => exact hvalue v hv

theorem Portable.child {node : Node} (h : node.Portable) :
    ∀ child ∈ node.children, child.Portable := by
  cases h with
  | mk _ _ _ hchildren => exact hchildren

theorem toJsonList_eq_map (nodes : List Node) : toJsonList nodes = nodes.map toJson := by
  induction nodes with
  | nil => rfl
  | cons node nodes ih => rw [toJsonList, ih, List.map_cons]

theorem ofJsonItems_eq_ok_iff {items : List Json} {nodes : List Node} :
    ofJsonItems items = .ok nodes ↔
      List.Forall₂ (fun item node => ofJson item = .ok node) items nodes := by
  induction items generalizing nodes with
  | nil =>
    constructor
    · rintro ⟨⟩
      exact .nil
    · rintro ⟨⟩
      rfl
  | cons item items ih =>
    rw [ofJsonItems]
    constructor
    · intro h
      obtain ⟨node, hn, h⟩ := bind_eq_ok h
      obtain ⟨rest, hr, h⟩ := bind_eq_ok h
      cases h
      exact .cons hn (ih.1 hr)
    · rintro (_ | ⟨hn, hr⟩)
      rw [hn, ih.2 hr]
      rfl

theorem exists_of_mem_ofJsonItems {items : List Json} {nodes : List Node} {node : Node}
    (h : ofJsonItems items = .ok nodes) (hm : node ∈ nodes) :
    ∃ item ∈ items, ofJson item = .ok node := by
  have hall := ofJsonItems_eq_ok_iff.1 h
  clear h
  induction hall with
  | nil => cases hm
  | @cons item first items nodes hf _ ih =>
    rcases List.mem_cons.1 hm with rfl | hm
    · exact ⟨item, by simp, hf⟩
    · obtain ⟨other, ho, hr⟩ := ih hm
      exact ⟨other, by simp [ho], hr⟩

/-- The children are read from the member of that name. -/
theorem childrenOf_eq (kind : Kind) (members : Entries Json) :
    childrenOf kind members =
      match members.lookup "children" with
      | none | some .null => .ok []
      | some (.array items) => if kind = .slice then .ok [] else ofJsonItems items
      | some _ => .error (.invalidChildren kind) := by
  induction members with
  | nil => rw [childrenOf]; rfl
  | cons member members ih =>
    obtain ⟨key, json⟩ := member
    rw [childrenOf.eq_def, List.lookup_cons]
    by_cases hk : key = "children"
    · subst hk
      simp only [if_true, beq_self_eq_true]
      cases json <;> rfl
    · simp only [if_neg hk, ih, beq_eq_false_iff_ne.2 (Ne.symm hk)]

theorem childrenOf_eq_ok {kind : Kind} {members : Entries Json} {children : List Node}
    (h : childrenOf kind members = .ok children) :
    children = [] ∨ kind ≠ .slice ∧ ∃ items, members.lookup "children" = some (.array items) ∧
      ofJsonItems items = .ok children := by
  rw [childrenOf_eq] at h
  split at h
  · exact .inl (Except.ok.inj h).symm
  · exact .inl (Except.ok.inj h).symm
  · next items hl =>
    split at h
    · exact .inl (Except.ok.inj h).symm
    · next hk => exact .inr ⟨hk, items, hl, h⟩
  · cases h

theorem valueOf?_eq_some {kind : Kind} {members : Entries Json} {value : Value}
    (h : valueOf? kind members = some value) :
    ∃ key json, members.lookup key = some json ∧ value = Value.ofJson json := by
  unfold valueOf? boundsOf? at h
  split at h
  · next json hl => exact ⟨"value", json, hl, (Option.some.inj h).symm⟩
  · split at h
    · next items hl => exact ⟨"children", _, hl, (Option.some.inj h).symm⟩
    · cases h
  · cases h

theorem kindOf?_eq_some {kind : Kind} {members : Entries Json} (h : kindOf? members = some kind) :
    ∃ name, Kind.ofName name = kind := by
  unfold kindOf? at h
  split at h
  · exact ⟨_, Option.some.inj h⟩
  · cases h

theorem valueOf?_of_some {kind : Kind} {members : Entries Json} {json : Json}
    (h : members.lookup "value" = some json) :
    valueOf? kind members = some (Value.ofJson json) := by
  simp only [valueOf?, h]

theorem valueOf?_of_none {kind : Kind} {members : Entries Json} (h : members.lookup "value" = none)
    (hc : kind = .slice → members.lookup "children" = none) : valueOf? kind members = none := by
  by_cases hk : kind = .slice
  · simp only [valueOf?, h, hk, boundsOf?, hc hk]
  · simp only [valueOf?, h]

/-- What a node is read from: its kind, source, children and value, each on its own. -/
theorem ofJson_eq_ok_iff {members : Entries Json} {node : Node} :
    ofJson (.object members) = .ok node ↔
      kindOf? members = some node.kind ∧ sourceOf members = .ok node.source ∧
        childrenOf node.kind members = .ok node.children ∧
        valueOf? node.kind members = node.value := by
  obtain ⟨kind, value, children, source⟩ := node
  rw [ofJson]
  constructor
  · intro h
    cases hk : kindOf? members with
    | none =>
      rw [hk] at h
      cases h
    | some found =>
      rw [hk] at h
      obtain ⟨from', hs, h⟩ := bind_eq_ok h
      obtain ⟨nodes, hc, h⟩ := bind_eq_ok h
      cases h
      exact ⟨rfl, hs, hc, rfl⟩
  · rintro ⟨hk, hs, hc, hv⟩
    simp only at hk hs hc hv
    simp only [hk, hs, hc, hv]
    rfl

/-- What the members that a node is written with are read as. -/
theorem toJson_eq_object (node : Node) : ∃ members, node.toJson = .object members ∧
    kindOf? members = some (Kind.ofName node.kind.name) ∧ sourceOf members = .ok node.source ∧
    (∀ kind, childrenOf kind members =
      if kind = .slice then .ok [] else ofJsonItems (node.children.map toJson)) ∧
    members.lookup "value" = node.value.map Value.toJson ∧
    (node.children = [] → members.lookup "children" = none) := by
  obtain ⟨kind, value, children, source⟩ := node
  obtain ⟨members, hj, ht, hv, hc, hs⟩ : ∃ members,
      toJson ⟨kind, value, children, source⟩ = .object members ∧
      members.lookup "type" = some (.string kind.name) ∧
      members.lookup "value" = value.map Value.toJson ∧
      members.lookup "children" =
        (if children = [] then none else some (.array (children.map toJson))) ∧
      members.lookup "source" = source.map fun source => .string source.name := by
    simp only [toJson, toJsonList_eq_map]
    refine ⟨_, rfl, ?_⟩
    cases value <;> cases children <;> cases source <;> simp [List.lookup]
  refine ⟨members, hj, ?_, ?_, fun kind => ?_, hv, fun h => ?_⟩
  · rw [kindOf?, ht]
    rfl
  · rw [sourceOf, hs]
    cases source with
    | none => rfl
    | some source => simp only [Option.map_some, SourceKind.ofName?_name]
  · rw [childrenOf_eq, hc]
    cases children with
    | nil => simp [ofJsonItems]
    | cons child children => simp
  · rw [hc, if_pos h]

/-- A written node can always be read. -/
theorem exists_ofJson_toJson (node : Node) : ∃ read, ofJson node.toJson = .ok read := by
  induction node using Node.induction with
  | step node ih =>
    obtain ⟨members, hj, hk, hs, hc, -, -⟩ := node.toJson_eq_object
    obtain ⟨nodes, hn⟩ : ∃ nodes, ofJsonItems (node.children.map toJson) = .ok nodes := by
      have hall : ∀ child ∈ node.children, ∃ read, ofJson child.toJson = .ok read :=
        fun child hm => (ih child hm).1
      generalize node.children = children at hall
      induction children with
      | nil => exact ⟨[], rfl⟩
      | cons child children ihc =>
        obtain ⟨⟨read, hr⟩, hrest⟩ := List.forall_mem_cons.1 hall
        obtain ⟨nodes, hn⟩ := ihc hrest
        exact ⟨read :: nodes, ofJsonItems_eq_ok_iff.2 (.cons hr (ofJsonItems_eq_ok_iff.1 hn))⟩
    have hchildren : ∃ children,
        childrenOf (Kind.ofName node.kind.name) members = .ok children := by
      rw [hc]
      split
      · exact ⟨[], rfl⟩
      · exact ⟨nodes, hn⟩
    obtain ⟨children, hchildren⟩ := hchildren
    rw [hj]
    exact ⟨⟨Kind.ofName node.kind.name, valueOf? (Kind.ofName node.kind.name) members, children,
      node.source⟩, ofJson_eq_ok_iff.2 ⟨hk, hs, hchildren, rfl⟩⟩

/-- A node comes back as it was just if the interchange form has words for it. -/
theorem ofJson_toJson_iff (node : Node) : ofJson node.toJson = .ok node ↔ node.Portable := by
  induction node using Node.induction with
  | step node ih =>
    obtain ⟨members, hj, hk, hs, hc, hv, hn⟩ := node.toJson_eq_object
    obtain ⟨kind, value, children, source⟩ := node
    rw [hj, ofJson_eq_ok_iff, hk, hs, hc, Option.some.injEq, Kind.ofName_name_iff]
    simp only at hv hn ⊢
    have hitems : ofJsonItems (children.map toJson) = .ok children ↔
        ∀ child ∈ children, child.Portable := by
      rw [ofJsonItems_eq_ok_iff, List.forall₂_map_left_iff, List.forall₂_same]
      exact forall₂_congr fun child hm => (ih child hm).1
    constructor
    · rintro ⟨hname, -, hchildren, hvalue⟩
      have hslice : kind = .slice → children = [] := by
        intro h
        rw [if_pos h] at hchildren
        exact (Except.ok.inj hchildren).symm
      refine .mk hname hslice ?_ ?_
      · rintro v rfl
        rw [valueOf?_of_some hv] at hvalue
        exact (Value.ofJson_toJson_iff v).1 (Option.some.inj hvalue)
      · split at hchildren
        · next h =>
          rw [hslice h]
          exact List.forall_mem_nil _
        · exact hitems.1 hchildren
    · rintro (⟨hname, hslice, hvalue, hchildren⟩)
      refine ⟨hname, trivial, ?_, ?_⟩
      · split
        · next h => rw [hslice h]
        · exact hitems.2 hchildren
      · cases value with
        | some v =>
          rw [valueOf?_of_some hv]
          exact congrArg some ((Value.ofJson_toJson_iff v).2 (hvalue v rfl))
        | none => exact valueOf?_of_none hv fun h => hn (hslice h)

/-- A node that was read can be written without loss. -/
theorem portable_of_ofJson {json : Json} (hj : json.Valid) {node : Node}
    (h : ofJson json = .ok node) : node.Portable := by
  -- the children stand two levels down, in the array that is the member of that name
  suffices hs : (∀ node, ofJson json = .ok node → node.Portable) ∧
      ∀ items, json = .array items → ∀ item ∈ items, ∀ node, ofJson item = .ok node →
        node.Portable from hs.1 node h
  clear h node
  induction hj with
  | @object members hvalid ih =>
    refine ⟨fun node h => ?_, fun _ he => nomatch he⟩
    obtain ⟨hk, -, hc, hv⟩ := ofJson_eq_ok_iff.1 h
    obtain ⟨kind, value, children, source⟩ := node
    obtain ⟨name, rfl⟩ := kindOf?_eq_some hk
    refine .mk (fun _ => Kind.ofName_not_mem_known) ?_ ?_ ?_
    · intro hslice
      rcases childrenOf_eq_ok hc with hnil | ⟨hne, -⟩
      · exact hnil
      · exact absurd hslice hne
    · rintro v rfl
      obtain ⟨key, json, hl, rfl⟩ := valueOf?_eq_some hv
      exact Value.portable_ofJson (hvalid _ (mem_of_lookup_eq_some hl))
    · rcases childrenOf_eq_ok hc with hnil | ⟨-, items, hl, hitems⟩
      · cases hnil
        exact List.forall_mem_nil _
      · intro child hm
        obtain ⟨item, hi, hr⟩ := exists_of_mem_ofJsonItems hitems hm
        exact (ih _ (mem_of_lookup_eq_some hl)).2 items rfl item hi child hr
  | array _ ih =>
    constructor
    · intro node h
      cases h
    · rintro items ⟨⟩ item hm
      exact (ih item hm).1
  | null | bool | integer | float | string =>
    constructor
    · intro node h
      cases h
    · intro items h
      cases h

/-- A written node can always be read. It comes back as it was just if every node in it is portable,
and every node that is read from a JSON value is: reading, writing and reading again gives the same
node. The JSON values that are valid are all that a text can spell. -/
theorem interchange :
    (∀ node : Node, ∃ read, ofJson node.toJson = .ok read) ∧
    (∀ node : Node, ofJson node.toJson = .ok node ↔ node.Portable) ∧
    (∀ json : Json, json.Valid → ∀ node, ofJson json = .ok node →
      node.Portable ∧ ofJson node.toJson = .ok node) ∧
    ∀ text json, Json.parse? text = some json → json.Valid := by
  refine ⟨exists_ofJson_toJson, ofJson_toJson_iff, fun json hj node h => ?_,
    fun _ _ => Json.valid_of_parse⟩
  have hp := portable_of_ofJson hj h
  exact ⟨hp, (ofJson_toJson_iff node).2 hp⟩

/-- A node under a second spelling of its kind, with a slice whose bounds are given as its children,
one of them too large for an integer. -/
theorem interchange_aliases :
    let json : Json := .object [("kind", .string "multi-select-dict"), ("children", .array [.object
      [("type", .string "key-val-pair"), ("value", .string "k"), ("children", .array [.object
        [("type", .string "slice"), ("source", .null),
          ("children", .array [.integer 1, .null, .integer 18446744073709551615])]])]])]
    let slice : Node :=
      ⟨.slice, some (.array [.integer 1, .null, .float ⟨false, 1087, 0⟩]), [], none⟩
    let node : Node := .multiSelectHash [("k", slice)]
    json.Valid ∧ ofJson json = .ok node ∧ node.Portable ∧ ofJson node.toJson = .ok node := by
  intro json slice node
  obtain ⟨-, -, hread, hvalid⟩ := interchange
  have hj : json.Valid := by
    refine hvalid ("\x7b\"kind\":\"multi-select-dict\",\"children\":[\x7b\"type\":\"key-val-pair\"," ++
      "\"value\":\"k\",\"children\":[\x7b\"type\":\"slice\",\"source\":null," ++
      "\"children\":[1,null,18446744073709551615]\x7d]\x7d]\x7d") json ?_
    cbv
  have ho : ofJson json = .ok node := rfl
  exact ⟨hj, ho, hread json hj node ho⟩

end Node

end PathQuery
