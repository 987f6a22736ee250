import PathQuery.Query.Check
import PathQuery.Proofs.Induction

/-!
# Nodes that pass the check

What a query has in common with the node it was made from. `Query.check_eq_ok` says once what a
node that passes the check is like: its rule exists, and the rule makes the query from what the
check makes of the children.
-/

namespace PathQuery

theorem Node.sizeOf_lt_of_mem_children {node child : Node} (h : child ∈ node.children) :
    sizeOf child < sizeOf node := by
  obtain ⟨kind, value, children, source⟩ := node
  have hc : sizeOf child < sizeOf children := List.sizeOf_lt_of_mem h
  rw [Node.mk.sizeOf_spec]
  omega

/-- Induction on nodes, with hypotheses about the children and about their children: the entries
of a multi-select hash stand one level below its children. -/
@[elab_as_elim]
theorem Node.induction {motive : Node → Prop}
    (step : ∀ node : Node, (∀ child ∈ node.children,
      motive child ∧ ∀ inner ∈ child.children, motive inner) → motive node) (node : Node) :
    motive node :=
  step node fun child _hc =>
    ⟨Node.induction step child, fun inner _hi => Node.induction step inner⟩
termination_by sizeOf node
decreasing_by
  · exact sizeOf_lt_of_mem_children _hc
  · exact Nat.lt_trans (sizeOf_lt_of_mem_children _hi) (sizeOf_lt_of_mem_children _hc)

namespace Node

mutual

/-- The node is as `p` says, and so is every node in it that stands outside of all expression
references. -/
def everywhere (p : Node → Bool) : Node → Bool
  | ⟨kind, value, children, source⟩ =>
    p ⟨kind, value, children, source⟩ &&
      (kind == .expressionReference || everywhereAll p children)

@[inherit_doc everywhere]
def everywhereAll (p : Node → Bool) : List Node → Bool
  | [] => true
  | node :: nodes => node.everywhere p && everywhereAll p nodes

end

variable {p : Node → Bool} {node child : Node}

theorem everywhereAll_iff {nodes : List Node} :
    everywhereAll p nodes = true ↔ ∀ node ∈ nodes, node.everywhere p = true := by
  induction nodes with
  | nil => simp [everywhereAll]
  | cons node nodes ih => rw [everywhereAll, Bool.and_eq_true, ih, List.forall_mem_cons]

theorem self_of_everywhere (h : node.everywhere p = true) : p node = true := by
  obtain ⟨kind, value, children, source⟩ := node
  rw [everywhere, Bool.and_eq_true] at h
  exact h.1

theorem everywhere_of_mem (h : node.everywhere p = true)
    (hk : (node.kind == .expressionReference) = false) (hc : child ∈ node.children) :
    child.everywhere p = true := by
  obtain ⟨kind, value, children, source⟩ := node
  rw [everywhere, Bool.and_eq_true, hk, Bool.false_or, everywhereAll_iff] at h
  exact h.2 child hc

end Node

theorem bind_eq_ok {ε α β : Type} {x : Except ε α} {f : α → Except ε β} {b : β}
    (h : x >>= f = .ok b) : ∃ a, x = .ok a ∧ f a = .ok b := by
  cases x with
  | error e => cases h
  | ok a => exact ⟨a, rfl, h⟩

theorem bind_eq_error {ε α β : Type} {x : Except ε α} {f : α → Except ε β} {e : ε}
    (h : x >>= f = .error e) : x = .error e ∨ ∃ a, x = .ok a ∧ f a = .error e := by
  cases x with
  | error e' =>
    cases h
    exact .inl rfl
  | ok a => exact .inr ⟨a, rfl, h⟩

theorem map_eq_ok {ε α β : Type} {x : Except ε α} {f : α → β} {b : β}
    (h : x.map f = .ok b) : ∃ a, x = .ok a ∧ f a = b := by
  cases x with
  | error e => cases h
  | ok a => exact ⟨a, rfl, Except.ok.inj h⟩

/-! ## The values of checked nodes -/

namespace Node

variable {node : Node}

theorem stringValue_eq_ok {name : String} (h : node.stringValue = .ok name) :
    node.value = some (.string name) := by
  unfold stringValue name? at h
  split at h
  · rename_i s hs
    split at hs
    · rename_i t hv
      cases hs
      cases h
      exact hv
    · cases hs
  · cases h

theorem literalValue_eq_ok {value : Value} (h : node.literalValue = .ok value) :
    node.value = some value := by
  unfold literalValue at h
  split at h
  · rename_i v hv
    cases h
    exact hv
  · cases h

theorem indexValue_eq_ok {i : Int} (h : node.indexValue = .ok i) :
    node.value = some (.integer i) := by
  unfold indexValue at h
  split at h
  · rename_i j hv
    cases h
    exact hv
  · cases h

theorem operator_eq_ok {op : Comparator} (h : node.operator = .ok op) :
    ∃ name, node.value = some (.string name) ∧ Comparator.ofName? name = some op := by
  unfold operator name? at h
  split at h
  · rename_i o ho
    obtain ⟨name, hn, hf⟩ := Option.bind_eq_some_iff.1 ho
    split at hn
    · rename_i t hv
      cases hn
      cases h
      exact ⟨name, hv, hf⟩
    · cases hn
  · cases h

theorem sliceBound_eq_ok {bound : Value} {i : Option Int} (h : node.sliceBound bound = .ok i) :
    bound = Value.ofInt? i := by
  unfold sliceBound at h
  split at h
  · cases h; rfl
  · cases h; rfl
  · cases h

theorem sliceQuery_eq_ok {query : Query} (h : node.sliceQuery = .ok query) :
    ∃ start stop step, node.value = some (.array (Query.bounds start stop step)) ∧
      query = .slice start stop step := by
  unfold sliceQuery at h
  split at h
  · rename_i a b c hv
    obtain ⟨start, ha, h⟩ := bind_eq_ok h
    obtain ⟨stop, hb, h⟩ := bind_eq_ok h
    obtain ⟨step, hc, h⟩ := bind_eq_ok h
    rw [sliceBound_eq_ok ha, sliceBound_eq_ok hb, sliceBound_eq_ok hc] at hv
    exact ⟨start, stop, step, hv, (Except.ok.inj h).symm⟩
  · cases h

end Node

/-! ## The parts of checked nodes -/

namespace Query

/-- The query comes from the children of a node by a rule. -/
def Makes (node : Node) (depth : Nat) (query : Query) : Rule → Prop
  | .leaf made => query = made
  | .unary make =>
    ∃ child part, node.children = [child] ∧ check depth child = .ok part ∧ query = make part
  | .binary make =>
    ∃ left right l r, node.children = [left, right] ∧ check depth left = .ok l ∧
      check depth right = .ok r ∧ query = make l r
  | .items make => ∃ parts, checkAll depth node.children = .ok parts ∧ query = make parts
  | .pairs make => ∃ parts, checkPairs node depth node.children = .ok parts ∧ query = make parts
  | .quoted make => ∃ child, node.children = [child] ∧ query = make child

theorem check_eq_ok {depth : Nat} {node : Node} {query : Query} (h : check depth node = .ok query) :
    ∃ rule, node.rule = .ok rule ∧ Makes node (depth + 1) query rule := by
  obtain ⟨kind, value, children, source⟩ := node
  rw [check] at h
  split at h
  · cases h
  obtain ⟨rule, hr, h⟩ := bind_eq_ok h
  refine ⟨rule, hr, ?_⟩
  cases rule with
  | leaf made => exact (Except.ok.inj h).symm
  | unary make =>
    dsimp only at h
    split at h
    · obtain ⟨part, hp, h⟩ := bind_eq_ok h
      exact ⟨_, part, rfl, hp, (Except.ok.inj h).symm⟩
    · cases h
  | binary make =>
    dsimp only at h
    split at h
    · obtain ⟨l, hl, h⟩ := bind_eq_ok h
      obtain ⟨r, hr, h⟩ := bind_eq_ok h
      exact ⟨_, _, l, r, rfl, hl, hr, (Except.ok.inj h).symm⟩
    · cases h
  | items make =>
    obtain ⟨parts, hp, h⟩ := bind_eq_ok h
    exact ⟨parts, hp, (Except.ok.inj h).symm⟩
  | pairs make =>
    obtain ⟨parts, hp, h⟩ := bind_eq_ok h
    exact ⟨parts, hp, (Except.ok.inj h).symm⟩
  | quoted make =>
    dsimp only at h
    split at h
    · exact ⟨_, rfl, (Except.ok.inj h).symm⟩
    · cases h

theorem checkAll_cons_eq_ok {depth : Nat} {node : Node} {nodes : List Node} {queries : List Query}
    (h : checkAll depth (node :: nodes) = .ok queries) :
    ∃ first rest, check depth node = .ok first ∧ checkAll depth nodes = .ok rest ∧
      queries = first :: rest := by
  rw [checkAll] at h
  obtain ⟨first, hf, h⟩ := bind_eq_ok h
  obtain ⟨rest, hr, h⟩ := bind_eq_ok h
  exact ⟨first, rest, hf, hr, (Except.ok.inj h).symm⟩

theorem checkPairs_cons_eq_ok {hash : Node} {depth : Nat} {node : Node} {nodes : List Node}
    {entries : List (String × Query)} (h : checkPairs hash depth (node :: nodes) = .ok entries) :
    ∃ key child query rest, node.kind = .keyValPair ∧ node.value = some (.string key) ∧
      node.children = [child] ∧ check depth child = .ok query ∧
      checkPairs hash depth nodes = .ok rest ∧ entries = (key, query) :: rest := by
  obtain ⟨kind, value, children, source⟩ := node
  rw [checkPairs] at h
  split at h
  · cases h
  · rename_i hk
    obtain ⟨key, hkey, h⟩ := bind_eq_ok h
    split at h
    · obtain ⟨query, hq, h⟩ := bind_eq_ok h
      obtain ⟨rest, hr, h⟩ := bind_eq_ok h
      exact ⟨key, _, query, rest, Decidable.not_not.1 hk, Node.stringValue_eq_ok hkey, rfl, hq, hr,
        (Except.ok.inj h).symm⟩
    · cases h

end Query

end PathQuery
