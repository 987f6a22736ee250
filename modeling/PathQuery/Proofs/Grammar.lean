import Mathlib
import PathQuery.Proofs.Interchange

/-!
# The grammar of the interchange form

Which JSON values are nodes, and what is reported of one that is none, both said without the reader:

* `Json.IsNode`: the grammar;
* `Node.Violation`: what a JSON value violates of the grammar, and at which place. A value may have
  many violations, at all depths. The places are ordered as the reader comes to them;
* `Node.ofJson_verdict`: reading succeeds just on the nodes of the grammar, and else fails with the
  violation that stands first.
-/

namespace PathQuery

namespace Node

/-- The members give a name for the kind: under `type`, or under `kind` if nothing stands under
`type`. -/
def NamesKind (members : Entries Json) (name : String) : Prop :=
  members.lookup "type" = some (.string name) ∨
    members.lookup "type" = none ∧ members.lookup "kind" = some (.string name)

/-- What may stand under `source`: nothing, null, or one of the two sources. -/
def IsSource (source : Option Json) : Prop :=
  source = none ∨ source = some .null ∨ source = some (.string "array") ∨
    source = some (.string "object")

end Node

open Node (NamesKind IsSource)

/-- The JSON value is the interchange form of a node. Under `children` stands nothing, null or an
array, and the items of the array are nodes themselves. The array of a slice may hold anything. -/
inductive Json.IsNode : Json → Prop
  | leaf {members : List (String × Json)} {name : String} : NamesKind members name →
    IsSource (members.lookup "source") →
    (members.lookup "children" = none ∨ members.lookup "children" = some .null) →
    IsNode (.object members)
  | slice {members : List (String × Json)} {name : String} {items : List Json} :
    NamesKind members name → IsSource (members.lookup "source") → Kind.ofName name = .slice →
    members.lookup "children" = some (.array items) → IsNode (.object members)
  | parent {members : List (String × Json)} {name : String} {items : List Json} :
    NamesKind members name → IsSource (members.lookup "source") →
    members.lookup "children" = some (.array items) → (∀ item ∈ items, IsNode item) →
    IsNode (.object members)

namespace Node

/-- At a place of a JSON value, the grammar is violated. The place is a path to the offending value,
through the children that lead to it, and then what is wrong with that value itself: it is no object
(0), it names no kind (1), it has a bad source (2), or its children are no array (3). The children
come after all this, child `i` as `i + 4`. -/
inductive Violation : List Nat → Json → NodeError → Prop
  | object {json : Json} : (∀ members, json ≠ .object members) →
    Violation [0] json (.expectedNode json)
  | kind {members : List (String × Json)} : (∀ name, ¬NamesKind members name) →
    Violation [1] (.object members) (.missingKind (.object members))
  | source {members : List (String × Json)} {json : Json} :
    members.lookup "source" = some json → ¬IsSource (some json) →
    Violation [2] (.object members) (.invalidSource json)
  | children {members : List (String × Json)} {name : String} {json : Json} :
    NamesKind members name → members.lookup "children" = some json → json ≠ .null →
    (∀ items, json ≠ .array items) →
    Violation [3] (.object members) (.invalidChildren (Kind.ofName name))
  | child {members : List (String × Json)} {name : String} {items : List Json} {i : Nat}
    {item : Json} {place : List Nat} {error : NodeError} :
    NamesKind members name → Kind.ofName name ≠ .slice →
    members.lookup "children" = some (.array items) → items[i]? = some item →
    Violation place item error → Violation ((i + 4) :: place) (.object members) error

/-- The error belongs to the violation that stands before all others. -/
def FirstViolation (json : Json) (error : NodeError) : Prop :=
  ∃ place, Violation place json error ∧
    ∀ other error', Violation other json error' → place ≤ other

/-! ## Members -/

theorem NamesKind.unique {members : Entries Json} {name other : String}
    (h : NamesKind members name) (ho : NamesKind members other) : name = other := by
  unfold NamesKind at h ho
  grind

theorem kindOf?_eq_some_iff {members : Entries Json} {kind : Kind} :
    kindOf? members = some kind ↔ ∃ name, NamesKind members name ∧ Kind.ofName name = kind := by
  unfold kindOf? NamesKind
  cases ht : members.lookup "type" with
  | none =>
    cases hk : members.lookup "kind" with
    | none => simp
    | some json => cases json <;> simp
  | some json => cases json <;> simp

/-- A source is read, or it is reported. -/
theorem sourceOf_cases (members : Entries Json) :
    (IsSource (members.lookup "source") ∧ ∃ source, sourceOf members = .ok source) ∨
      ∃ json, members.lookup "source" = some json ∧ ¬IsSource (some json) ∧
        sourceOf members = .error (.invalidSource json) := by
  unfold sourceOf IsSource
  cases hs : members.lookup "source" with
  | none => simp
  | some json =>
    cases json with
    | string name =>
      by_cases ha : name = "array"
      · simp [ha, SourceKind.ofName?]
      · by_cases ho : name = "object"
        · simp [ho, SourceKind.ofName?]
        · simp [ha, ho, SourceKind.ofName?]
    | _ => simp

/-! ## Violations -/

/-- At one place there is one violation. -/
theorem Violation.unique {place : List Nat} {json : Json} {error error' : NodeError}
    (h : Violation place json error) (h' : Violation place json error') : error = error' := by
  induction h with
  | object =>
    cases h' with
    | object => rfl
  | kind =>
    cases h' with
    | kind => rfl
  | source hs =>
    cases h' with
    | source hs' => rw [Option.some.inj (hs.symm.trans hs')]
  | children hk =>
    cases h' with
    | children hk' => rw [hk.unique hk']
  | child _ _ hc hi _ ih =>
    cases h' with
    | child _ _ hc' hi' hv =>
      cases hc.symm.trans hc'
      cases hi.symm.trans hi'
      exact ih hv

/-- A node violates nothing. -/
theorem Violation.not_isNode {place : List Nat} {json : Json} {error : NodeError}
    (h : Violation place json error) : ¬json.IsNode := by
  intro hn
  induction h with
  | object h => cases hn <;> exact h _ rfl
  | kind h => cases hn <;> exact h _ ‹_›
  | source hs hbad => cases hn <;> exact hbad (hs ▸ ‹_›)
  | children _ hc hnull harray =>
    cases hn with
    | leaf _ _ hnone => simp [hc, hnull] at hnone
    | slice _ _ _ hc' => exact harray _ (Option.some.inj (hc.symm.trans hc'))
    | parent _ _ hc' _ => exact harray _ (Option.some.inj (hc.symm.trans hc'))
  | child hk hslice hc hi _ ih =>
    cases hn with
    | leaf _ _ hnone => simp [hc] at hnone
    | slice hk' _ hslice' _ => exact hslice (hk.unique hk' ▸ hslice')
    | parent _ _ hc' hitems =>
      cases hc.symm.trans hc'
      exact ih (hitems _ (List.mem_of_getElem? hi))

/-! ## Reading -/

/-- An array of nodes fails at the first item that fails. -/
theorem ofJsonItems_eq_error {items : List Json} {error : NodeError}
    (h : ofJsonItems items = .error error) :
    ∃ before item after, items = before ++ item :: after ∧
      (∀ item ∈ before, ∃ node, ofJson item = .ok node) ∧ ofJson item = .error error := by
  induction items with
  | nil => cases h
  | cons first items ih =>
    rw [ofJsonItems] at h
    rcases bind_eq_error h with hf | ⟨node, hf, h⟩
    · exact ⟨[], first, items, rfl, List.forall_mem_nil _, hf⟩
    · rcases bind_eq_error h with hrest | ⟨nodes, -, h⟩
      · obtain ⟨before, item, after, rfl, hb, hi⟩ := ih hrest
        exact ⟨first :: before, item, after, rfl, List.forall_mem_cons.2 ⟨⟨node, hf⟩, hb⟩, hi⟩
      · cases h

theorem exists_ofJson_of_mem {items : List Json} {nodes : List Node} {item : Json}
    (h : ofJsonItems items = .ok nodes) (hi : item ∈ items) : ∃ node, ofJson item = .ok node := by
  have hall := ofJsonItems_eq_ok_iff.1 h
  clear h
  induction hall with
  | nil => cases hi
  | @cons first node items nodes hf _ ih =>
    rcases List.mem_cons.1 hi with rfl | hi
    · exact ⟨node, hf⟩
    · exact ih hi

theorem childrenOf_eq_error {kind : Kind} {members : Entries Json} {error : NodeError}
    (h : childrenOf kind members = .error error) :
    (∃ json, members.lookup "children" = some json ∧ json ≠ .null ∧ (∀ items, json ≠ .array items) ∧
        error = .invalidChildren kind) ∨
      kind ≠ .slice ∧ ∃ items, members.lookup "children" = some (.array items) ∧
        ofJsonItems items = .error error := by
  rw [childrenOf_eq] at h
  split at h
  · cases h
  · cases h
  · next items hl =>
    split at h
    · cases h
    · next hk => exact .inr ⟨hk, items, hl, h⟩
  · next json hnull harray hl =>
    exact .inl ⟨json, hl, hnull, harray, (Except.error.inj h).symm⟩

/-- An object is refused for its kind, for its source, or for its children. -/
theorem ofJson_eq_error {members : Entries Json} {error : NodeError}
    (h : ofJson (.object members) = .error error) :
    ((∀ name, ¬NamesKind members name) ∧ error = .missingKind (.object members)) ∨
      ∃ name, NamesKind members name ∧
        ((∃ json, members.lookup "source" = some json ∧ ¬IsSource (some json) ∧
            error = .invalidSource json) ∨
          IsSource (members.lookup "source") ∧
            childrenOf (Kind.ofName name) members = .error error) := by
  rw [ofJson] at h
  cases hk : kindOf? members with
  | none =>
    rw [hk] at h
    cases h
    refine .inl ⟨fun name hname => ?_, rfl⟩
    rw [kindOf?_eq_some_iff.2 ⟨name, hname, rfl⟩] at hk
    cases hk
  | some kind =>
    rw [hk] at h
    obtain ⟨name, hname, rfl⟩ := kindOf?_eq_some_iff.1 hk
    refine .inr ⟨name, hname, ?_⟩
    rcases sourceOf_cases members with ⟨hs, source, hok⟩ | ⟨json, hl, hbad, herror⟩
    · rcases bind_eq_error h with h | ⟨_, -, h⟩
      · cases hok.symm.trans h
      · rcases bind_eq_error h with h | ⟨_, -, h⟩
        · exact .inr ⟨hs, h⟩
        · cases h
    · rw [herror] at h
      cases h
      exact .inl ⟨json, hl, hbad, rfl⟩

/-- Induction over a JSON value and what stands under `children`. -/
theorem childInduction {motive : Json → Prop}
    (step : ∀ json : Json, (∀ items, json.get? "children" = some (.array items) →
      ∀ item ∈ items, motive item) → motive json) (json : Json) : motive json := by
  -- the children stand two levels down, in the array that is the member of that name
  suffices h : motive json ∧ ∀ items, json = .array items → ∀ item ∈ items, motive item from h.1
  induction json with
  | object members ih =>
    refine ⟨step _ fun items hl item hi => ?_, ?_⟩
    · exact (ih _ (mem_of_lookup_eq_some hl)).2 items rfl item hi
    · intro items h
      cases h
  | array items ih =>
    refine ⟨step _ ?_, ?_⟩
    · intro items h
      cases h
    · rintro items ⟨⟩ item hi
      exact (ih item hi).1
  | null | bool | integer | float | string =>
    refine ⟨step _ ?_, ?_⟩ <;> intro items h <;> cases h

/-- What is read is a node. -/
theorem isNode_of_ofJson {json : Json} {node : Node} (h : ofJson json = .ok node) :
    json.IsNode := by
  induction json using childInduction generalizing node with
  | step json ih =>
    cases json with
    | object members =>
      obtain ⟨hk, hs, hc, -⟩ := ofJson_eq_ok_iff.1 h
      obtain ⟨name, hname, hkind⟩ := kindOf?_eq_some_iff.1 hk
      have hsource : IsSource (members.lookup "source") := by
        rcases sourceOf_cases members with ⟨hsource, -⟩ | ⟨json, -, -, hbad⟩
        · exact hsource
        · cases hs.symm.trans hbad
      rw [childrenOf_eq] at hc
      split at hc
      · next hl => exact .leaf hname hsource (.inl hl)
      · next hl => exact .leaf hname hsource (.inr hl)
      · next items hl =>
        split at hc
        · next hslice => exact .slice hname hsource (hkind.trans hslice) hl
        · refine .parent hname hsource hl fun item hi => ?_
          obtain ⟨child, hchild⟩ := exists_ofJson_of_mem hc hi
          exact ih items hl item hi hchild
      · cases hc
    | _ => cases h

theorem le_of_head_lt {a b : Nat} {place other : List Nat} (h : a < b) : a :: place ≤ b :: other :=
  le_of_lt (List.cons_lt_cons_iff.2 (.inl h))

section

variable {members : Entries Json} {name : String}

/-- Without a kind, that comes first. -/
theorem firstViolation_kind (h : ∀ name, ¬NamesKind members name) :
    FirstViolation (.object members) (.missingKind (.object members)) := by
  refine ⟨[1], .kind h, fun other error' hv => ?_⟩
  cases hv with
  | object hne => exact absurd rfl (hne members)
  | kind => exact le_refl _
  | source | children | child => exact le_of_head_lt (by omega)

/-- With a kind, a bad source comes first. -/
theorem firstViolation_source {json : Json} (hk : NamesKind members name)
    (hl : members.lookup "source" = some json) (hbad : ¬IsSource (some json)) :
    FirstViolation (.object members) (.invalidSource json) := by
  refine ⟨[2], .source hl hbad, fun other error' hv => ?_⟩
  cases hv with
  | object hne => exact absurd rfl (hne members)
  | kind hnone => exact absurd hk (hnone name)
  | source => exact le_refl _
  | children | child => exact le_of_head_lt (by omega)

/-- With a kind and a source, children that are no array come first. -/
theorem firstViolation_children {json : Json} (hk : NamesKind members name)
    (hs : IsSource (members.lookup "source")) (hl : members.lookup "children" = some json)
    (hnull : json ≠ .null) (harray : ∀ items, json ≠ .array items) :
    FirstViolation (.object members) (.invalidChildren (Kind.ofName name)) := by
  refine ⟨[3], .children hk hl hnull harray, fun other error' hv => ?_⟩
  cases hv with
  | object hne => exact absurd rfl (hne members)
  | kind hnone => exact absurd hk (hnone name)
  | source hl' hbad => exact absurd (hl' ▸ hs) hbad
  | children => exact le_refl _
  | child => exact le_of_head_lt (by omega)

/-- With all this, what is wrong with a child comes first if there is nothing wrong with those
before it. -/
theorem firstViolation_child {before after : List Json} {item : Json} {error : NodeError}
    (hk : NamesKind members name) (hs : IsSource (members.lookup "source"))
    (hslice : Kind.ofName name ≠ .slice)
    (hl : members.lookup "children" = some (.array (before ++ item :: after)))
    (hb : ∀ item ∈ before, item.IsNode) (hi : FirstViolation item error) :
    FirstViolation (.object members) error := by
  obtain ⟨place, hv, hfirst⟩ := hi
  refine ⟨(before.length + 4) :: place, .child hk hslice hl (by simp) hv, ?_⟩
  intro other error' hv'
  cases hv' with
  | object hne => exact absurd rfl (hne members)
  | kind hnone => exact absurd hk (hnone name)
  | source hl' hbad => exact absurd (hl' ▸ hs) hbad
  | children _ hl' _ harray => exact absurd (Option.some.inj (hl'.symm.trans hl)) (harray _)
  | @child _ _ items i other' place' _ _ _ hl' hi' hv' =>
    cases hl.symm.trans hl'
    rcases Nat.lt_trichotomy i before.length with hlt | heq | hgt
    · rw [List.getElem?_append_left hlt] at hi'
      exact absurd (hb other' (List.mem_of_getElem? hi')) hv'.not_isNode
    · subst heq
      rw [List.getElem?_append_right (Nat.le_refl _), Nat.sub_self, List.getElem?_cons_zero] at hi'
      cases hi'
      exact List.cons_le_cons _ (hfirst place' error' hv')
    · exact le_of_head_lt (by omega)

end

/-- Reading fails with the first violation. -/
theorem firstViolation_of_error {json : Json} {error : NodeError} (h : ofJson json = .error error) :
    FirstViolation json error := by
  induction json using childInduction generalizing error with
  | step json ih =>
    cases json with
    | object members =>
      rcases ofJson_eq_error h with ⟨hnone, rfl⟩ | ⟨name, hname, ⟨json, hl, hbad, rfl⟩ | ⟨hs, hc⟩⟩
      · exact firstViolation_kind hnone
      · exact firstViolation_source hname hl hbad
      · rcases childrenOf_eq_error hc with ⟨json, hl, hnull, harray, rfl⟩ | ⟨hslice, items, hl, hc⟩
        · exact firstViolation_children hname hs hl hnull harray
        · obtain ⟨before, item, after, rfl, hb, hi⟩ := ofJsonItems_eq_error hc
          refine firstViolation_child hname hs hslice hl (fun other ho => ?_)
            (ih _ hl item (by simp) hi)
          obtain ⟨node, hn⟩ := hb other ho
          exact isNode_of_ofJson hn
    | _ =>
      cases h
      refine ⟨[0], .object (by simp), fun other error' hv => ?_⟩
      cases hv with
      | object => exact le_refl _

/-- A JSON value is read just if it is a node of the grammar. Else reading fails with the violation
that stands before all others. -/
theorem ofJson_verdict (json : Json) :
    ((∃ node, ofJson json = .ok node) ↔ json.IsNode) ∧
      ∀ error, ofJson json = .error error ↔ FirstViolation json error := by
  cases h : ofJson json with
  | ok node =>
    have hnode := isNode_of_ofJson h
    refine ⟨by simp [hnode], fun error => ⟨by rintro ⟨⟩, ?_⟩⟩
    rintro ⟨place, hv, -⟩
    exact absurd hnode hv.not_isNode
  | error e =>
    obtain ⟨place, hv, hfirst⟩ := firstViolation_of_error h
    refine ⟨by simp [hv.not_isNode], fun error => ⟨?_, ?_⟩⟩
    · rintro ⟨⟩
      exact ⟨place, hv, hfirst⟩
    · rintro ⟨other, hv', hfirst'⟩
      cases le_antisymm (hfirst other error hv') (hfirst' place e hv)
      rw [hv.unique hv']

/-- A grandchild without a kind is reported before the next child, which is not even an object. -/
example :
    ofJson (.object [("type", .string "not"), ("children", .array
      [.object [("kind", .string "pipe"), ("children", .array [.object []])], .null])]) =
      .error (.missingKind (.object [])) := by
  rfl

end Node

end PathQuery
