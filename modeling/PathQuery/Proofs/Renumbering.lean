import Mathlib
import PathQuery.Proofs.Correctness
import PathQuery.Proofs.Interchange

/-!
# Expression references under other numbers

The expression references that queries make are told apart by their numbers. Nothing else hangs on
the numbers:

* `Value.renumber`: a value with other numbers in the place of its own. If the numbers that occur in
  it (`Value.sites`) stay, then so does the value (`Value.renumber_eq_self`);
* `Comparator.compare_renumber`: comparisons come out the same as long as different numbers stay
  different, and all other operations on values take no notice of the numbers;
* `Host.Respects`: hosts that take no notice of them either. The tracing host is one
  (`Host.respects_tracing`), and the calls that such a host gets are renumbered with the rest
  (`Host.Respects.recording`).
-/

namespace PathQuery

def Origin.renumber (e : Nat → Nat) : Origin → Origin
  | .given n => .given n
  | .site n => .site (e n)

theorem Origin.renumber_injective {e : Nat → Nat} (he : Function.Injective e) :
    Function.Injective (Origin.renumber e) := by
  rintro (m | m) (n | n) h
  · exact h
  · cases h
  · cases h
  · exact congrArg Origin.site (he (Origin.site.inj h))

mutual

/-- The value with number `e n` for each expression reference that was made with number `n`. Those
that were handed in from outside stay. -/
def Value.renumber (e : Nat → Nat) : Value → Value
  | .null => .null
  | .boolean b => .boolean b
  | .integer n => .integer n
  | .float x => .float x
  | .string s => .string s
  | .array items => .array (Value.renumberItems e items)
  | .object entries => .object (Value.renumberEntries e entries)
  | .expref origin node => .expref (origin.renumber e) (node.renumber e)

@[inherit_doc Value.renumber]
def Value.renumberItems (e : Nat → Nat) : List Value → List Value
  | [] => []
  | item :: items => item.renumber e :: Value.renumberItems e items

@[inherit_doc Value.renumber]
def Value.renumberEntries (e : Nat → Nat) : List (String × Value) → List (String × Value)
  | [] => []
  | (key, item) :: entries => (key, item.renumber e) :: Value.renumberEntries e entries

/-- The node with other numbers for the expression references in its values. -/
def Node.renumber (e : Nat → Nat) : Node → Node
  | ⟨kind, none, children, source⟩ => ⟨kind, none, Node.renumberAll e children, source⟩
  | ⟨kind, some value, children, source⟩ =>
    ⟨kind, some (value.renumber e), Node.renumberAll e children, source⟩

@[inherit_doc Node.renumber]
def Node.renumberAll (e : Nat → Nat) : List Node → List Node
  | [] => []
  | node :: nodes => node.renumber e :: Node.renumberAll e nodes

end

def Origin.sites : Origin → List Nat
  | .given _ => []
  | .site n => [n]

mutual

/-- The numbers of the expression references in a value that queries have made, also of those that
stand in the node of another. -/
def Value.sites : Value → List Nat
  | .null | .boolean _ | .integer _ | .float _ | .string _ => []
  | .array items => Value.sitesItems items
  | .object entries => Value.sitesEntries entries
  | .expref origin node => origin.sites ++ node.sites

@[inherit_doc Value.sites]
def Value.sitesItems : List Value → List Nat
  | [] => []
  | item :: items => item.sites ++ Value.sitesItems items

@[inherit_doc Value.sites]
def Value.sitesEntries : List (String × Value) → List Nat
  | [] => []
  | (_, item) :: entries => item.sites ++ Value.sitesEntries entries

/-- The numbers of the expression references in the values of a node. -/
def Node.sites : Node → List Nat
  | ⟨_, none, children, _⟩ => Node.sitesAll children
  | ⟨_, some value, children, _⟩ => value.sites ++ Node.sitesAll children

@[inherit_doc Node.sites]
def Node.sitesAll : List Node → List Nat
  | [] => []
  | node :: nodes => node.sites ++ Node.sitesAll nodes

end

variable {e : Nat → Nat}

theorem Node.renumberAll_eq_map (nodes : List Node) :
    Node.renumberAll e nodes = nodes.map (Node.renumber e) := by
  induction nodes with
  | nil => rfl
  | cons node nodes ih => rw [Node.renumberAll, ih, List.map_cons]

theorem Node.renumber_mk (kind : Kind) (value : Option Value) (children : List Node)
    (source : Option SourceKind) : (Node.mk kind value children source).renumber e =
      ⟨kind, value.map (Value.renumber e), children.map (Node.renumber e), source⟩ := by
  rw [← Node.renumberAll_eq_map]
  cases value <;> rfl

theorem Node.renumber_eq_self_iff {kind : Kind} {value : Option Value} {children : List Node}
    {source : Option SourceKind} :
    (Node.mk kind value children source).renumber e = ⟨kind, value, children, source⟩ ↔
      value.map (Value.renumber e) = value ∧ ∀ child ∈ children, child.renumber e = child := by
  rw [Node.renumber_mk, Node.mk.injEq, Value.map_eq_self_iff]
  exact ⟨fun h => ⟨h.2.1, h.2.2.1⟩, fun h => ⟨rfl, h.1, h.2, rfl⟩⟩

/-- The parts of a node that stays the same stay the same. -/
theorem Node.renumber_of_mem {node child : Node} (h : node.renumber e = node)
    (hc : child ∈ node.children) : child.renumber e = child := by
  obtain ⟨kind, value, children, source⟩ := node
  exact (Node.renumber_eq_self_iff.1 h).2 child hc

theorem Node.sitesAll_eq_flatMap (nodes : List Node) :
    Node.sitesAll nodes = nodes.flatMap Node.sites := by
  induction nodes with
  | nil => rfl
  | cons node nodes ih => rw [Node.sitesAll, ih, List.flatMap_cons]

namespace Value

theorem sitesItems_eq_flatMap (items : List Value) : sitesItems items = items.flatMap sites := by
  induction items with
  | nil => rfl
  | cons item items ih => rw [sitesItems, ih, List.flatMap_cons]

theorem sitesEntries_eq_flatMap (entries : List (String × Value)) :
    sitesEntries entries = entries.flatMap fun entry => entry.2.sites := by
  induction entries with
  | nil => rfl
  | cons entry entries ih => rw [sitesEntries, ih, List.flatMap_cons]

theorem renumberItems_eq_map (items : List Value) :
    renumberItems e items = items.map (renumber e) := by
  induction items with
  | nil => rfl
  | cons item items ih => rw [renumberItems, ih, List.map_cons]

theorem renumberEntries_eq_map (entries : List (String × Value)) :
    renumberEntries e entries = entries.map fun entry => (entry.1, entry.2.renumber e) := by
  induction entries with
  | nil => rfl
  | cons entry entries ih => rw [renumberEntries, ih, List.map_cons]

/-- Induction on values that goes into the nodes of expression references: `p` is what holds of
nodes. -/
theorem deepInduction {motive : Value → Prop} {p : Node → Prop}
    (null : motive .null)
    (boolean : ∀ b, motive (.boolean b))
    (integer : ∀ n, motive (.integer n))
    (float : ∀ x, motive (.float x))
    (string : ∀ s, motive (.string s))
    (array : ∀ items, (∀ item ∈ items, motive item) → motive (.array items))
    (object : ∀ entries, (∀ entry ∈ entries, motive entry.2) → motive (.object entries))
    (expref : ∀ origin node, p node → motive (.expref origin node))
    (node : ∀ kind value children source, (∀ v ∈ value, motive v) → (∀ child ∈ children, p child) →
      p ⟨kind, value, children, source⟩) :
    ∀ value, motive value := by
  intro value
  refine @Value.rec motive p (fun items => ∀ item ∈ items, motive item)
    (fun entries => ∀ entry ∈ entries, motive entry.2) (fun value => ∀ v ∈ value, motive v)
    (fun nodes => ∀ node ∈ nodes, p node) (fun entry => motive entry.2) null boolean integer float
    string array object expref node ?nil ?cons ?noEntry ?entry ?none ?some ?noNode ?nodes ?pair
    value
  case nil => exact List.forall_mem_nil _
  case cons => exact fun _ _ head tail => List.forall_mem_cons.2 ⟨head, tail⟩
  case noEntry => exact List.forall_mem_nil _
  case entry => exact fun _ _ head tail => List.forall_mem_cons.2 ⟨head, tail⟩
  case none => exact fun _ h => absurd h (Option.not_mem_none _)
  case some => exact fun _ h _ hv => Option.mem_some.1 hv ▸ h
  case noNode => exact List.forall_mem_nil _
  case nodes => exact fun _ _ head tail => List.forall_mem_cons.2 ⟨head, tail⟩
  case pair => exact fun _ _ value => value

/-- A value stays the same if the numbers in it stay the same. -/
theorem renumber_eq_self {value : Value} (h : ∀ n ∈ value.sites, e n = n) :
    value.renumber e = value := by
  revert h
  refine deepInduction (motive := fun value => (∀ n ∈ value.sites, e n = n) →
      value.renumber e = value) (p := fun node => (∀ n ∈ node.sites, e n = n) →
      node.renumber e = node) (fun _ => rfl) (fun _ _ => rfl) (fun _ _ => rfl) (fun _ _ => rfl)
    (fun _ _ => rfl) ?array ?object ?expref ?node value
  case array =>
    intro items ih h
    rw [sites, sitesItems_eq_flatMap] at h
    rw [renumber, renumberItems_eq_map]
    refine congrArg array (map_eq_self_iff.2 fun item hi => ih item hi fun n hn => h n ?_)
    exact List.mem_flatMap.2 ⟨item, hi, hn⟩
  case object =>
    intro entries ih h
    rw [sites, sitesEntries_eq_flatMap] at h
    rw [renumber, renumberEntries_eq_map]
    refine congrArg object (map_eq_self_iff.2 fun entry he => ?_)
    refine congrArg (Prod.mk entry.1) (ih entry he fun n hn => h n ?_)
    exact List.mem_flatMap.2 ⟨entry, he, hn⟩
  case expref =>
    intro origin node ih h
    obtain ⟨horigin, hnode⟩ := List.forall_mem_append.1 h
    rw [renumber, ih hnode]
    cases origin with
    | given n => rfl
    | site n => rw [Origin.renumber, horigin n (List.mem_singleton_self n)]
  case node =>
    intro kind value children source hvalue hchildren h
    have hparts (hs : ∀ n ∈ Node.sitesAll children, e n = n) :
        ∀ child ∈ children, child.renumber e = child := by
      intro child hc
      refine hchildren child hc fun n hn => hs n ?_
      rw [Node.sitesAll_eq_flatMap]
      exact List.mem_flatMap.2 ⟨child, hc, hn⟩
    cases value with
    | none => exact Node.renumber_eq_self_iff.2 ⟨rfl, hparts h⟩
    | some v =>
      obtain ⟨hv, hrest⟩ := List.forall_mem_append.1 h
      exact Node.renumber_eq_self_iff.2 ⟨congrArg some (hvalue v rfl hv), hparts hrest⟩

theorem renumber_id (value : Value) : value.renumber id = value :=
  renumber_eq_self fun _ _ => rfl

end Value

theorem Node.renumber_eq_self {node : Node} (h : ∀ n ∈ node.sites, e n = n) :
    node.renumber e = node := by
  have hvalue : (Value.expref (.given 0) node).renumber e = .expref (.given 0) node :=
    Value.renumber_eq_self h
  exact (Value.expref.inj hvalue).2

theorem Node.renumber_id (node : Node) : node.renumber id = node :=
  renumber_eq_self fun _ _ => rfl

/-- There are no expression references in JSON. -/
theorem Value.Portable.sites_eq_nil {value : Value} (h : value.Portable) : value.sites = [] := by
  induction h with
  | null | boolean _ | integer _ | float _ | string _ => rfl
  | array _ ih => rw [sites, sitesItems_eq_flatMap, List.flatMap_eq_nil_iff.2 ih]
  | object _ ih => rw [sites, sitesEntries_eq_flatMap, List.flatMap_eq_nil_iff.2 ih]

theorem Node.Portable.sites_eq_nil {node : Node} (h : node.Portable) : node.sites = [] := by
  induction h with
  | @mk _ value _ _ _ _ hvalue _ ih =>
    have hchildren : sitesAll _ = [] := (sitesAll_eq_flatMap _).trans (List.flatMap_eq_nil_iff.2 ih)
    cases value with
    | none => exact hchildren
    | some v => rw [sites, (hvalue v rfl).sites_eq_nil, hchildren, List.append_nil]

namespace Value

/-! ## Operations on values -/

theorem typeName_renumber (value : Value) : (value.renumber e).typeName = value.typeName := by
  cases value <;> rfl

theorem asInt?_renumber (value : Value) : (value.renumber e).asInt? = value.asInt? := by
  cases value <;> rfl

theorem length?_renumber (value : Value) : (value.renumber e).length? = value.length? := by
  cases value with
  | array items =>
    simp only [renumber, length?, renumberItems_eq_map, List.length_map]
  | object entries =>
    simp only [renumber, length?, renumberEntries_eq_map, List.length_map]
  | _ => rfl

theorem isNull_renumber (value : Value) : (value.renumber e).isNull = value.isNull := by
  cases value <;> rfl

theorem isSequence_renumber (value : Value) : (value.renumber e).isSequence = value.isSequence := by
  cases value <;> rfl

theorem isMapping_renumber (value : Value) : (value.renumber e).isMapping = value.isMapping := by
  cases value <;> rfl

theorem truthy_renumber (value : Value) : (value.renumber e).truthy = value.truthy := by
  cases value with
  | array items => cases items <;> rfl
  | object entries => cases entries <;> rfl
  | _ => rfl

theorem elements_renumber (value : Value) :
    (value.renumber e).elements = value.elements.map (renumber e) := by
  cases value with
  | array items => exact renumberItems_eq_map items
  | object entries => simp [renumber, elements, renumberEntries_eq_map, Entries.values]
  | _ => rfl

theorem opened_renumber (value : Value) :
    (value.renumber e).opened = value.opened.map (renumber e) := by
  cases value with
  | array items => exact renumberItems_eq_map items
  | _ => rfl

theorem lookup_renumberEntries (key : String) (entries : List (String × Value)) :
    (renumberEntries e entries).lookup key = (entries.lookup key).map (renumber e) := by
  induction entries with
  | nil => rfl
  | cons entry entries ih =>
    obtain ⟨first, value⟩ := entry
    rw [renumberEntries, List.lookup_cons, List.lookup_cons, ih]
    cases key == first <;> rfl

theorem field_renumber (key : String) (value : Value) :
    (value.renumber e).field key = (value.field key).renumber e := by
  cases value with
  | object entries =>
    rw [renumber, field, field, lookup_renumberEntries]
    cases entries.lookup key <;> rfl
  | _ => rfl

theorem getD_renumberItems (items : List Value) (i : Nat) :
    (renumberItems e items).getD i .null = (items.getD i .null).renumber e := by
  rw [renumberItems_eq_map, List.getD_eq_getElem?_getD, List.getD_eq_getElem?_getD,
    List.getElem?_map]
  cases items[i]? <;> rfl

theorem element_renumber (value index : Value) :
    (value.renumber e).element (index.renumber e) = (value.element index).renumber e := by
  cases value with
  | array items =>
    cases index with
    | integer i =>
      simp only [renumber, element, getD_renumberItems]
      split <;> rfl
    | _ => rfl
  | _ => rfl

theorem item_renumber (i : Int) (value : Value) :
    (value.renumber e).item i = (value.item i).renumber e := by
  cases value with
  | array items =>
    have hlength : (renumberItems e items).length = items.length := by
      rw [renumberItems_eq_map, List.length_map]
    simp only [renumber, item, getD_renumberItems, hlength, apply_ite (renumber e)]
  | _ => rfl

theorem renumberEntries_insert (key : String) (value : Value) (entries : List (String × Value)) :
    renumberEntries e (Entries.insert key value entries) =
      Entries.insert key (value.renumber e) (renumberEntries e entries) := by
  induction entries with
  | nil => rfl
  | cons entry entries ih =>
    obtain ⟨first, other⟩ := entry
    rw [Entries.insert, renumberEntries, Entries.insert]
    split
    · rfl
    · rw [renumberEntries, ih]

/-! ## Comparisons -/

variable {mixed : Int → Binary64 → Bool}

theorem agreeItems_renumber {items : List Value}
    (h : ∀ item ∈ items, ∀ other, (item.renumber e).agree mixed (other.renumber e) =
      item.agree mixed other) (others : List Value) :
    agreeItems mixed (renumberItems e items) (renumberItems e others) =
      agreeItems mixed items others := by
  induction items generalizing others with
  | nil => cases others <;> rfl
  | cons item items ih =>
    obtain ⟨hi, hs⟩ := List.forall_mem_cons.1 h
    cases others with
    | nil => rfl
    | cons other others => rw [renumberItems, renumberItems, agreeItems, agreeItems, hi, ih hs]

theorem agreeEntries_renumber {entries : List (String × Value)}
    (h : ∀ entry ∈ entries, ∀ other, (entry.2.renumber e).agree mixed (other.renumber e) =
      entry.2.agree mixed other) (others : List (String × Value)) :
    agreeEntries mixed (renumberEntries e entries) (renumberEntries e others) =
      agreeEntries mixed entries others := by
  induction entries with
  | nil => rfl
  | cons entry entries ih =>
    obtain ⟨key, value⟩ := entry
    obtain ⟨hv, hs⟩ := List.forall_mem_cons.1 h
    rw [renumberEntries, agreeEntries, agreeEntries, lookup_renumberEntries, ih hs]
    cases others.lookup key with
    | none => rfl
    | some other => simp only [Option.map_some, hv]

/-- Equality takes no notice of the numbers as long as different ones stay different. -/
theorem agree_renumber (he : Function.Injective e) (a b : Value) :
    (a.renumber e).agree mixed (b.renumber e) = a.agree mixed b := by
  induction a generalizing b with
  | array items ih =>
    cases b with
    | array others => exact agreeItems_renumber ih others
    | _ => rfl
  | object entries ih =>
    cases b with
    | object others =>
      simp only [renumber, agree, agreeEntries_renumber ih others]
      simp only [renumberEntries_eq_map, List.length_map]
    | _ => rfl
  | expref origin node =>
    cases b with
    | expref other _ =>
      rw [renumber, renumber, agree, agree, Bool.eq_iff_iff, beq_iff_eq, beq_iff_eq]
      exact (Origin.renumber_injective he).eq_iff
    | _ => rfl
  | _ => cases b <;> rfl

end Value

theorem Comparator.compare_renumber (he : Function.Injective e) (op : Comparator) (a b : Value) :
    op.compare (a.renumber e) (b.renumber e) = op.compare a b := by
  cases op with
  | equal => exact Value.agree_renumber he a b
  | notEqual => exact congrArg (!·) (Value.agree_renumber he a b)
  | _ => cases a <;> cases b <;> rfl

/-! ## Hosts -/

def Call.renumber (e : Nat → Nat) (call : Call) : Call :=
  ⟨call.name, call.args.map (Value.renumber e)⟩

theorem Call.renumber_id (call : Call) : call.renumber id = call := by
  have hvalue : Value.renumber id = id := funext Value.renumber_id
  rw [renumber, hvalue, List.map_id]

namespace Host

variable {σ : Type} {host : Host σ} {t : σ → σ}

/-- The functions of the host take no notice of the numbers of expression references: if the
arguments come with other numbers, so does the reply. What the state of the host keeps of the
numbers is changed by `t`. -/
def Respects (host : Host σ) (e : Nat → Nat) (t : σ → σ) : Prop :=
  ∀ name args s, host.invoke name (args.map (Value.renumber e)) (t s) =
    ((host.invoke name args s).1.map (Value.renumber e), t (host.invoke name args s).2)

theorem respects_id (host : Host σ) : host.Respects id id := by
  intro name args s
  have hvalue : Value.renumber id = id := funext Value.renumber_id
  rw [hvalue, List.map_id, id_eq, id_eq]
  rcases host.invoke name args s with ⟨_ | _, _⟩ <;> rfl

theorem Respects.recording (h : host.Respects e t) :
    host.recording.Respects e fun st => (t st.1, st.2.map (Call.renumber e)) := by
  intro name args st
  simp only [Host.recording, h name args st.1, List.map_append]
  rfl

end Host

/-! ## The tracing host -/

theorem Value.toJson_renumber (value : Value) : (value.renumber e).toJson = value.toJson := by
  induction value with
  | array items ih =>
    rw [renumber, toJson, toJson, renumberItems_eq_map, toJsonItems_eq_map, toJsonItems_eq_map,
      List.map_map]
    exact congrArg Json.array (List.map_congr_left ih)
  | object entries ih =>
    rw [renumber, toJson, toJson, renumberEntries_eq_map, toJsonEntries_eq_map,
      toJsonEntries_eq_map, List.map_map]
    exact congrArg Json.object
      (List.map_congr_left fun entry he => congrArg (Prod.mk entry.1) (ih entry he))
  | _ => rfl

theorem Node.toJson_renumber (node : Node) : (node.renumber e).toJson = node.toJson := by
  induction node using Node.induction with
  | step node ih =>
    obtain ⟨kind, value, children, source⟩ := node
    have hchildren : toJsonList (children.map (Node.renumber e)) = toJsonList children := by
      rw [toJsonList_eq_map, toJsonList_eq_map, List.map_map]
      exact List.map_congr_left fun child hc => (ih child hc).1
    rw [Node.renumber_mk]
    cases value with
    | none => simp only [Node.toJson, Option.map_none, hchildren]
    | some value => simp only [Node.toJson, Option.map_some, value.toJson_renumber, hchildren]

theorem Slicing.items_renumber (array : List Value) (start stop : Option Int) (step : Int) :
    Slicing.items (array.map (Value.renumber e)) start stop step =
      (Slicing.items array start stop step).map (Value.renumber e) := by
  simp only [Slicing.items, List.length_map, List.map_map]
  refine List.map_congr_left fun i _ => ?_
  rw [← Value.renumberItems_eq_map]
  exact Value.getD_renumberItems array i.toNat

theorem Slicing.slice_renumber (target : Value) (start stop step : Option Int) :
    Slicing.slice (target.renumber e) start stop step =
      (Slicing.slice target start stop step).map (Value.renumber e) := by
  cases target with
  | array items =>
    simp only [Value.renumber, Slicing.slice, Value.renumberItems_eq_map, items_renumber]
    split
    · rfl
    · simp only [Except.map, Value.renumber, Value.renumberItems_eq_map]
  | _ => rfl

namespace Tracing

theorem evaluateChain_renumber {nodes : List Node}
    (h : ∀ node ∈ nodes, ∀ input, evaluate (node.renumber e) (input.renumber e) =
      (evaluate node input).map (Value.renumber e)) (input : Value) :
    evaluateChain (nodes.map (Node.renumber e)) (input.renumber e) =
      (evaluateChain nodes input).map (Value.renumber e) := by
  cases nodes with
  | nil => rfl
  | cons left rest =>
    obtain ⟨hleft, hrest⟩ := List.forall_mem_cons.1 h
    rw [List.map_cons, evaluateChain, evaluateChain, hleft]
    cases evaluate left input with
    | error error => rfl
    | ok result =>
      have hnull : (result.renumber e).isNull = result.isNull := result.isNull_renumber
      cases rest with
      | nil =>
        simp only [Except.map, bind, Except.bind, hnull, List.map_nil]
        cases result.isNull <;> rfl
      | cons right others =>
        simp only [Except.map, bind, Except.bind, hnull, List.map_cons]
        cases result.isNull with
        | true => rfl
        | false => exact (List.forall_mem_cons.1 hrest).1 result

theorem evaluate_renumber (node : Node) (input : Value) :
    evaluate (node.renumber e) (input.renumber e) =
      (evaluate node input).map (Value.renumber e) := by
  induction node using Node.induction generalizing input with
  | step node ih =>
    obtain ⟨kind, value, children, source⟩ := node
    rw [Node.renumber_mk]
    cases kind with
    | subexpression =>
      exact evaluateChain_renumber (fun child hc => (ih child hc).1) input
    | literal => cases value <;> rfl
    | field =>
      cases value with
      | none => rfl
      | some value =>
        cases value with
        | string name => exact congrArg Except.ok (Value.field_renumber name input)
        | _ => rfl
    | index =>
      cases value with
      | none => rfl
      | some value =>
        cases value with
        | integer i => exact congrArg Except.ok (Value.item_renumber i input)
        | _ => rfl
    | _ => rfl

theorem inOrder_renumber (a b : Value) : inOrder (a.renumber e) (b.renumber e) = inOrder a b := by
  cases a <;> cases b <;> rfl

theorem keyed_renumber {key key' : Value → Except RuntimeError Value}
    (h : ∀ item, key' (item.renumber e) = (key item).map (Value.renumber e)) (items : List Value) :
    keyed key' (items.map (Value.renumber e)) =
      (keyed key items).map (List.map (Prod.map (Value.renumber e) (Value.renumber e))) := by
  induction items with
  | nil => rfl
  | cons item items ih =>
    rw [List.map_cons, keyed, keyed, h, ih]
    cases key item with
    | error error => rfl
    | ok k => cases keyed key items <;> rfl

theorem sortBy_renumber {key key' : Value → Except RuntimeError Value}
    (h : ∀ item, key' (item.renumber e) = (key item).map (Value.renumber e)) (items : List Value) :
    sortBy key' (items.map (Value.renumber e)) =
      (sortBy key items).map (Value.renumber e) := by
  rw [sortBy, sortBy, keyed_renumber h]
  cases keyed key items with
  | error error => rfl
  | ok pairs =>
    have hsorted := @List.map_mergeSort _ _ (fun a b => inOrder a.1 b.1)
      (fun a b => inOrder a.1 b.1) (Prod.map (Value.renumber e) (Value.renumber e)) pairs
      (fun a _ b _ => (inOrder_renumber a.1 b.1).symm)
    refine congrArg (fun items => Except.ok (Value.array items)) ?_
    rw [← hsorted, Value.renumberItems_eq_map, List.map_map, List.map_map]
    rfl

theorem applyRef_renumber (origin : Origin) (node : Node) (input : Value) :
    applyRef (origin.renumber e) (node.renumber e) (input.renumber e) =
      (applyRef origin node input).map (Value.renumber e) := by
  cases origin with
  | given n =>
    have htext : (node.renumber e).text = node.text :=
      congrArg Json.compact node.toJson_renumber
    simp only [Origin.renumber, applyRef, Host.apply, Host.behind, Host.unbound, htext, Except.map]
  | site n => exact evaluate_renumber node input

theorem invoke_length_renumber (args : List Value) :
    invoke "length" (args.map (Value.renumber e)) =
      (invoke "length" args).map (Value.renumber e) := by
  rcases args with _ | ⟨arg, _ | ⟨_, rest⟩⟩
  · rfl
  · simp only [invoke, List.map_cons, List.map_nil, Value.length?_renumber, Value.typeName_renumber]
    cases arg.length? <;> rfl
  · simp [invoke, Except.map]

theorem invoke_keys_renumber (args : List Value) :
    invoke "keys" (args.map (Value.renumber e)) =
      (invoke "keys" args).map (Value.renumber e) := by
  rcases args with _ | ⟨arg, _ | ⟨_, rest⟩⟩
  · rfl
  · cases arg with
    | object entries =>
      simp [invoke, Value.renumber, Value.renumberEntries_eq_map, Value.renumberItems_eq_map,
        Entries.keys, Except.map]
    | _ => rfl
  · simp [invoke, Except.map]

theorem invoke_sortBy_renumber (args : List Value) :
    invoke "sort_by" (args.map (Value.renumber e)) =
      (invoke "sort_by" args).map (Value.renumber e) := by
  rcases args with _ | ⟨target, _ | ⟨key, _ | ⟨_, rest⟩⟩⟩
  · rfl
  · cases target <;> rfl
  · cases target with
    | array items =>
      cases key with
      | expref origin node =>
        have h := sortBy_renumber (applyRef_renumber (e := e) origin node) items
        rw [← Value.renumberItems_eq_map] at h
        exact h
      | _ => rfl
    | _ => cases key <;> rfl
  · simp [invoke, Except.map]

theorem invoke_slice_renumber (args : List Value) :
    invoke "slice" (args.map (Value.renumber e)) =
      (invoke "slice" args).map (Value.renumber e) := by
  rcases args with _ | ⟨target, _ | ⟨start, _ | ⟨stop, _ | ⟨step, _ | ⟨_, rest⟩⟩⟩⟩⟩
  · rfl
  · rfl
  · rfl
  · rfl
  · simp only [invoke, List.map_cons, List.map_nil, Value.asInt?_renumber, Slicing.slice_renumber]
  · simp [invoke, Except.map]

theorem invoke_renumber (name : String) (args : List Value) :
    invoke name (args.map (Value.renumber e)) = (invoke name args).map (Value.renumber e) := by
  by_cases hl : name = "length"
  · rw [hl, invoke_length_renumber]
  by_cases hk : name = "keys"
  · rw [hk, invoke_keys_renumber]
  by_cases hsort : name = "sort_by"
  · rw [hsort, invoke_sortBy_renumber]
  by_cases hslice : name = "slice"
  · rw [hslice, invoke_slice_renumber]
  have hunknown (args : List Value) : invoke name args = .error (.unknownFunction name) := by
    unfold invoke
    split
    · exact absurd rfl hl
    · exact absurd rfl hk
    · exact absurd rfl hsort
    · exact absurd rfl hslice
    · rfl
  rw [hunknown, hunknown, Except.map]

end Tracing

theorem Host.respects_tracing (e : Nat → Nat) :
    Host.tracing.Respects e (List.map (Call.renumber e)) := by
  intro name args trace
  simp only [Host.tracing, Tracing.invoke_renumber, List.map_append]
  rfl

end PathQuery
