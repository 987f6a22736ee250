import Mathlib
import PathQuery.Proofs.Checked

/-!
# What nodes that pass the check are like

* `Query.Construct`: a node that passes the check with the query that it makes, one case for each
  construct of queries, with the node in the form that the check asks for;
* `Query.check_induction`: induction on such nodes. Several nodes and their queries correspond one
  by one, and so do the members of a multi-select hash and their entries (`Query.EntryOf`);
* `Query.check_unique`: a node makes the same query at every depth.
-/

namespace PathQuery.Query

theorem depth_lt_of_check {depth : Nat} {node : Node} {query : Query}
    (h : check depth node = .ok query) : depth < maxDepth := by
  obtain ⟨kind, value, children, source⟩ := node
  rw [check] at h
  split at h
  · cases h
  · next hd => exact Nat.lt_of_not_le hd

/-- The node passes the check below `depth` others and makes the query. -/
def Checks (depth : Nat) (node : Node) (query : Query) : Prop := check depth node = .ok query

/-- The members of a multi-select hash, each with its entry: a pair node whose key is that of the
entry and whose child is related to the query of the entry. -/
def EntryOf (r : Node → Query → Prop) (pair : Node) (entry : String × Query) : Prop :=
  ∃ child source, pair = ⟨.keyValPair, some (.string entry.1), [child], source⟩ ∧ r child entry.2

theorem forall₂_of_checkAll {depth : Nat} {nodes : List Node} {queries : List Query}
    (h : checkAll depth nodes = .ok queries) : List.Forall₂ (Checks depth) nodes queries := by
  induction nodes generalizing queries with
  | nil =>
    cases h
    exact .nil
  | cons node nodes ih =>
    obtain ⟨first, rest, hf, hr, rfl⟩ := checkAll_cons_eq_ok h
    exact .cons hf (ih hr)

theorem forall₂_of_checkPairs {hash : Node} {depth : Nat} {nodes : List Node}
    {entries : List (String × Query)} (h : checkPairs hash depth nodes = .ok entries) :
    List.Forall₂ (EntryOf (Checks depth)) nodes entries := by
  induction nodes generalizing entries with
  | nil =>
    cases h
    exact .nil
  | cons node nodes ih =>
    obtain ⟨key, child, query, rest, hk, hv, hc, hq, hr, rfl⟩ := checkPairs_cons_eq_ok h
    obtain ⟨kind, value, children, source⟩ := node
    cases hk
    cases hv
    cases hc
    exact .cons ⟨child, source, rfl, hq⟩ (ih hr)

theorem forall₂_of_forall_mem {p : Node → Prop} {r : Node → Query → Prop} {nodes : List Node}
    {queries : List Query}
    (h : List.Forall₂ (fun node query => p node → r node query) nodes queries)
    (hp : ∀ node ∈ nodes, p node) : List.Forall₂ r nodes queries :=
  ((List.forall₂_and_left _ _).2 ⟨hp, h⟩).imp fun _ _ h => h.2 h.1

theorem forall₂_entryOf_of_forall_mem {p : Node → Prop} {r : Node → Query → Prop}
    {nodes : List Node} {entries : List (String × Query)}
    (h : List.Forall₂ (EntryOf fun node query => p node → r node query) nodes entries)
    (hp : ∀ node ∈ nodes, node.kind = .keyValPair → ∀ child ∈ node.children, p child) :
    List.Forall₂ (EntryOf r) nodes entries := by
  refine ((List.forall₂_and_left _ _).2 ⟨hp, h⟩).imp fun pair entry h => ?_
  obtain ⟨hchildren, child, source, rfl, hr⟩ := h
  exact ⟨child, source, rfl, hr (hchildren rfl child (List.mem_singleton_self child))⟩

theorem forall_mem_of_forall₂ {p : Query → Prop} {nodes : List Node} {queries : List Query}
    (h : List.Forall₂ (fun _ query => p query) nodes queries) : ∀ query ∈ queries, p query := by
  induction h with
  | nil => exact List.forall_mem_nil _
  | cons hq _ ih => exact List.forall_mem_cons.2 ⟨hq, ih⟩

theorem forall_mem_of_forall₂_entryOf {p : Query → Prop} {nodes : List Node}
    {entries : List (String × Query)}
    (h : List.Forall₂ (EntryOf fun _ query => p query) nodes entries) :
    ∀ entry ∈ entries, p entry.2 := by
  induction h with
  | nil => exact List.forall_mem_nil _
  | cons he _ ih =>
    obtain ⟨_, _, _, hq⟩ := he
    exact List.forall_mem_cons.2 ⟨hq, ih⟩

/-- A node and the query that it makes, with operands that pass the check one level below. -/
inductive Construct (depth : Nat) : Node → Query → Prop
  | literal {v children source} :
    Construct depth ⟨.literal, some v, children, source⟩ (.literal v)
  | field {name children source} :
    Construct depth ⟨.field, some (.string name), children, source⟩ (.field name)
  | index {i children source} :
    Construct depth ⟨.index, some (.integer i), children, source⟩ (.index i)
  | slice {start stop step children source} :
    Construct depth ⟨.slice, some (.array (bounds start stop step)), children, source⟩
      (.slice start stop step)
  | current {value children source} :
    Construct depth ⟨.current, value, children, source⟩ .current
  | reference {value child source} :
    Construct depth ⟨.expressionReference, value, [child], source⟩ (.reference 0 child)
  | not {value child source query} : Checks (depth + 1) child query →
    Construct depth ⟨.not, value, [child], source⟩ (.not query)
  | flatten {value child source query} : Checks (depth + 1) child query →
    Construct depth ⟨.flatten, value, [child], source⟩ (.flatten query)
  | pair {value child source query} : Checks (depth + 1) child query →
    Construct depth ⟨.keyValPair, value, [child], source⟩ query
  | subexpression {kind value left right source l r} : kind = .subexpression ∨ kind = .condition →
    Checks (depth + 1) left l → Checks (depth + 1) right r →
    Construct depth ⟨kind, value, [left, right], source⟩ (.subexpression l r)
  | pipe {value left right source l r} : Checks (depth + 1) left l → Checks (depth + 1) right r →
    Construct depth ⟨.pipe, value, [left, right], source⟩ (.pipe l r)
  | or {value left right source l r} : Checks (depth + 1) left l → Checks (depth + 1) right r →
    Construct depth ⟨.or, value, [left, right], source⟩ (.or l r)
  | and {value left right source l r} : Checks (depth + 1) left l → Checks (depth + 1) right r →
    Construct depth ⟨.and, value, [left, right], source⟩ (.and l r)
  | projection {value left right source l r} : Checks (depth + 1) left l →
    Checks (depth + 1) right r →
    Construct depth ⟨.projection, value, [left, right], source⟩
      (.projection (source.getD .array) l r)
  | comparator {name op left right source l r} : Comparator.ofName? name = some op →
    Checks (depth + 1) left l → Checks (depth + 1) right r →
    Construct depth ⟨.comparator, some (.string name), [left, right], source⟩ (.comparator op l r)
  | list {value children source items} : List.Forall₂ (Checks (depth + 1)) children items →
    Construct depth ⟨.multiSelectList, value, children, source⟩ (.list items)
  | hash {value children source entries} :
    List.Forall₂ (EntryOf (Checks (depth + 1))) children entries →
    Construct depth ⟨.multiSelectHash, value, children, source⟩ (.hash entries)
  | call {name children source args} : List.Forall₂ (Checks (depth + 1)) children args →
    Construct depth ⟨.functionCall, some (.string name), children, source⟩ (.call name args)

/-- The kind of a node that passes the check settles its rule, and the rule what the query was made
from. -/
theorem construct_of_check {depth : Nat} {node : Node} {query : Query}
    (h : check depth node = .ok query) : Construct depth node query := by
  obtain ⟨rule, hr, hm⟩ := check_eq_ok h
  obtain ⟨kind, value, children, source⟩ := node
  cases kind with
  | literal =>
    obtain ⟨v, hv, rfl⟩ := map_eq_ok hr
    cases Node.literalValue_eq_ok hv
    cases hm
    exact .literal
  | field =>
    obtain ⟨name, hv, rfl⟩ := map_eq_ok hr
    cases Node.stringValue_eq_ok hv
    cases hm
    exact .field
  | index =>
    obtain ⟨i, hv, rfl⟩ := map_eq_ok hr
    cases Node.indexValue_eq_ok hv
    cases hm
    exact .index
  | slice =>
    obtain ⟨made, hv, rfl⟩ := map_eq_ok hr
    obtain ⟨start, stop, step, hb, rfl⟩ := Node.sliceQuery_eq_ok hv
    cases hb
    cases hm
    exact .slice
  | current =>
    cases hr
    cases hm
    exact .current
  | expressionReference =>
    cases hr
    obtain ⟨child, rfl, rfl⟩ := hm
    exact .reference
  | not =>
    cases hr
    obtain ⟨child, part, rfl, hc, rfl⟩ := hm
    exact .not hc
  | flatten =>
    cases hr
    obtain ⟨child, part, rfl, hc, rfl⟩ := hm
    exact .flatten hc
  | keyValPair =>
    cases hr
    obtain ⟨child, part, rfl, hc, rfl⟩ := hm
    exact .pair hc
  | subexpression =>
    cases hr
    obtain ⟨left, right, l, r, rfl, hl, hr, rfl⟩ := hm
    exact .subexpression (.inl rfl) hl hr
  | condition =>
    cases hr
    obtain ⟨left, right, l, r, rfl, hl, hr, rfl⟩ := hm
    exact .subexpression (.inr rfl) hl hr
  | pipe =>
    cases hr
    obtain ⟨left, right, l, r, rfl, hl, hr, rfl⟩ := hm
    exact .pipe hl hr
  | or =>
    cases hr
    obtain ⟨left, right, l, r, rfl, hl, hr, rfl⟩ := hm
    exact .or hl hr
  | and =>
    cases hr
    obtain ⟨left, right, l, r, rfl, hl, hr, rfl⟩ := hm
    exact .and hl hr
  | projection =>
    cases hr
    obtain ⟨left, right, l, r, rfl, hl, hr, rfl⟩ := hm
    exact .projection hl hr
  | comparator =>
    obtain ⟨op, hv, rfl⟩ := map_eq_ok hr
    obtain ⟨name, hname, hop⟩ := Node.operator_eq_ok hv
    cases hname
    obtain ⟨left, right, l, r, rfl, hl, hr, rfl⟩ := hm
    exact .comparator hop hl hr
  | multiSelectList =>
    cases hr
    obtain ⟨parts, hp, rfl⟩ := hm
    exact .list (forall₂_of_checkAll hp)
  | multiSelectHash =>
    cases hr
    obtain ⟨parts, hp, rfl⟩ := hm
    exact .hash (forall₂_of_checkPairs hp)
  | functionCall =>
    obtain ⟨name, hv, rfl⟩ := map_eq_ok hr
    cases Node.stringValue_eq_ok hv
    obtain ⟨parts, hp, rfl⟩ := hm
    exact .call (forall₂_of_checkAll hp)
  | unknown name => cases hr

/-- Induction on a node that passes the check, together with the query that it makes and the number
of levels above it. -/
theorem check_induction {motive : Nat → Node → Query → Prop}
    (literal : ∀ {depth v children source}, depth < maxDepth →
      motive depth ⟨.literal, some v, children, source⟩ (.literal v))
    (field : ∀ {depth name children source}, depth < maxDepth →
      motive depth ⟨.field, some (.string name), children, source⟩ (.field name))
    (index : ∀ {depth i children source}, depth < maxDepth →
      motive depth ⟨.index, some (.integer i), children, source⟩ (.index i))
    (slice : ∀ {depth start stop step children source}, depth < maxDepth →
      motive depth ⟨.slice, some (.array (bounds start stop step)), children, source⟩
        (.slice start stop step))
    (current : ∀ {depth value children source}, depth < maxDepth →
      motive depth ⟨.current, value, children, source⟩ .current)
    (reference : ∀ {depth value child source}, depth < maxDepth →
      motive depth ⟨.expressionReference, value, [child], source⟩ (.reference 0 child))
    (not : ∀ {depth value child source query}, depth < maxDepth →
      motive (depth + 1) child query → motive depth ⟨.not, value, [child], source⟩ (.not query))
    (flatten : ∀ {depth value child source query}, depth < maxDepth →
      motive (depth + 1) child query →
      motive depth ⟨.flatten, value, [child], source⟩ (.flatten query))
    (pair : ∀ {depth value child source query}, depth < maxDepth →
      motive (depth + 1) child query → motive depth ⟨.keyValPair, value, [child], source⟩ query)
    (subexpression : ∀ {depth kind value left right source l r}, depth < maxDepth →
      kind = .subexpression ∨ kind = .condition →
      motive (depth + 1) left l → motive (depth + 1) right r →
      motive depth ⟨kind, value, [left, right], source⟩ (.subexpression l r))
    (pipe : ∀ {depth value left right source l r}, depth < maxDepth →
      motive (depth + 1) left l → motive (depth + 1) right r →
      motive depth ⟨.pipe, value, [left, right], source⟩ (.pipe l r))
    (or : ∀ {depth value left right source l r}, depth < maxDepth →
      motive (depth + 1) left l → motive (depth + 1) right r →
      motive depth ⟨.or, value, [left, right], source⟩ (.or l r))
    (and : ∀ {depth value left right source l r}, depth < maxDepth →
      motive (depth + 1) left l → motive (depth + 1) right r →
      motive depth ⟨.and, value, [left, right], source⟩ (.and l r))
    (projection : ∀ {depth value left right source l r}, depth < maxDepth →
      motive (depth + 1) left l → motive (depth + 1) right r →
      motive depth ⟨.projection, value, [left, right], source⟩
        (.projection (source.getD .array) l r))
    (comparator : ∀ {depth name op left right source l r}, depth < maxDepth →
      Comparator.ofName? name = some op →
      motive (depth + 1) left l → motive (depth + 1) right r →
      motive depth ⟨.comparator, some (.string name), [left, right], source⟩ (.comparator op l r))
    (list : ∀ {depth value children source items}, depth < maxDepth →
      List.Forall₂ (motive (depth + 1)) children items →
      motive depth ⟨.multiSelectList, value, children, source⟩ (.list items))
    (hash : ∀ {depth value children source entries}, depth < maxDepth →
      List.Forall₂ (EntryOf (motive (depth + 1))) children entries →
      motive depth ⟨.multiSelectHash, value, children, source⟩ (.hash entries))
    (call : ∀ {depth name children source args}, depth < maxDepth →
      List.Forall₂ (motive (depth + 1)) children args →
      motive depth ⟨.functionCall, some (.string name), children, source⟩ (.call name args))
    {depth : Nat} {node : Node} {query : Query} (h : check depth node = .ok query) :
    motive depth node query := by
  induction node using Node.induction generalizing depth query with
  | step node ih =>
    have hd := depth_lt_of_check h
    cases construct_of_check h with
    | literal => exact literal hd
    | field => exact field hd
    | index => exact index hd
    | slice => exact slice hd
    | current => exact current hd
    | reference => exact reference hd
    | not hq => exact not hd ((ih _ (by simp)).1 hq)
    | flatten hq => exact flatten hd ((ih _ (by simp)).1 hq)
    | pair hq => exact pair hd ((ih _ (by simp)).1 hq)
    | subexpression hk hl hr =>
      exact subexpression hd hk ((ih _ (by simp)).1 hl) ((ih _ (by simp)).1 hr)
    | pipe hl hr => exact pipe hd ((ih _ (by simp)).1 hl) ((ih _ (by simp)).1 hr)
    | or hl hr => exact or hd ((ih _ (by simp)).1 hl) ((ih _ (by simp)).1 hr)
    | and hl hr => exact and hd ((ih _ (by simp)).1 hl) ((ih _ (by simp)).1 hr)
    | projection hl hr => exact projection hd ((ih _ (by simp)).1 hl) ((ih _ (by simp)).1 hr)
    | comparator hop hl hr =>
      exact comparator hd hop ((ih _ (by simp)).1 hl) ((ih _ (by simp)).1 hr)
    | list hitems =>
      refine list hd (((List.forall₂_and_left _ _).2 ⟨ih, hitems⟩).imp fun child query h => ?_)
      exact h.1.1 h.2
    | call hargs =>
      refine call hd (((List.forall₂_and_left _ _).2 ⟨ih, hargs⟩).imp fun child query h => ?_)
      exact h.1.1 h.2
    | hash hentries =>
      refine hash hd (((List.forall₂_and_left _ _).2 ⟨ih, hentries⟩).imp fun pair entry h => ?_)
      obtain ⟨hpair, child, source, rfl, hq⟩ := h
      exact ⟨child, source, rfl, hpair.2 child (List.mem_singleton_self child) hq⟩

/-! ## The depth of a node -/

theorem checkAll_unique {nodes : List Node} (ih : ∀ node ∈ nodes, ∀ {depth depth' query query'},
      check depth node = .ok query → check depth' node = .ok query' → query = query')
    {depth depth' : Nat} {queries queries' : List Query} (h : checkAll depth nodes = .ok queries)
    (h' : checkAll depth' nodes = .ok queries') : queries = queries' := by
  induction nodes generalizing queries queries' with
  | nil =>
    cases h
    cases h'
    rfl
  | cons node nodes ihn =>
    obtain ⟨hn, hns⟩ := List.forall_mem_cons.1 ih
    obtain ⟨first, rest, hf, hr, rfl⟩ := checkAll_cons_eq_ok h
    obtain ⟨first', rest', hf', hr', rfl⟩ := checkAll_cons_eq_ok h'
    rw [hn hf hf', ihn hns hr hr']

theorem checkPairs_unique {hash : Node} {nodes : List Node}
    (ih : ∀ node ∈ nodes, ∀ child ∈ node.children, ∀ {depth depth' query query'},
      check depth child = .ok query → check depth' child = .ok query' → query = query')
    {depth depth' : Nat} {entries entries' : List (String × Query)}
    (h : checkPairs hash depth nodes = .ok entries)
    (h' : checkPairs hash depth' nodes = .ok entries') : entries = entries' := by
  induction nodes generalizing entries entries' with
  | nil =>
    cases h
    cases h'
    rfl
  | cons node nodes ihn =>
    obtain ⟨hn, hns⟩ := List.forall_mem_cons.1 ih
    obtain ⟨key, child, query, rest, -, hv, hc, hq, hr, rfl⟩ := checkPairs_cons_eq_ok h
    obtain ⟨key', child', query', rest', -, hv', hc', hq', hr', rfl⟩ := checkPairs_cons_eq_ok h'
    cases hv.symm.trans hv'
    cases hc.symm.trans hc'
    rw [hn child (by simp [hc]) hq hq', ihn hns hr hr']

/-- How deep a node stands decides whether it passes the check, but not which query it makes. -/
theorem check_unique {node : Node} {depth depth' : Nat} {query query' : Query}
    (h : check depth node = .ok query) (h' : check depth' node = .ok query') : query = query' := by
  induction node using Node.induction generalizing depth depth' query query' with
  | step node ih =>
    obtain ⟨rule, hr, hm⟩ := check_eq_ok h
    obtain ⟨rule', hr', hm'⟩ := check_eq_ok h'
    cases hr.symm.trans hr'
    cases rule with
    | leaf made => exact Eq.trans hm (Eq.symm hm')
    | unary make =>
      obtain ⟨child, part, hc, hp, rfl⟩ := hm
      obtain ⟨child', part', hc', hp', rfl⟩ := hm'
      cases hc.symm.trans hc'
      rw [(ih child (by simp [hc])).1 hp hp']
    | binary make =>
      obtain ⟨left, right, l, r, hc, hl, hr, rfl⟩ := hm
      obtain ⟨left', right', l', r', hc', hl', hr', rfl⟩ := hm'
      cases hc.symm.trans hc'
      rw [(ih left (by simp [hc])).1 hl hl', (ih right (by simp [hc])).1 hr hr']
    | items make =>
      obtain ⟨parts, hp, rfl⟩ := hm
      obtain ⟨parts', hp', rfl⟩ := hm'
      rw [checkAll_unique (fun child hc => (ih child hc).1) hp hp']
    | pairs make =>
      obtain ⟨parts, hp, rfl⟩ := hm
      obtain ⟨parts', hp', rfl⟩ := hm'
      rw [checkPairs_unique (fun child hc => (ih child hc).2) hp hp']
    | quoted make =>
      obtain ⟨child, hc, rfl⟩ := hm
      obtain ⟨child', hc', rfl⟩ := hm'
      cases hc.symm.trans hc'
      rfl

end PathQuery.Query
