import PathQuery.Proofs.Constructs
import PathQuery.Query.Eval
import PathQuery.Query.Number

/-!
# The meaning of syntax trees

`Node.eval` gives the answer of a syntax tree on a value under a host, by recursion on the tree:
one rule for each kind of node. It knows nothing of the check, of queries or of code.

A node that the check refuses has no meaning; here it counts as null. `Query.means_of_check` says
that a node which passes the check means what its query means.
-/

namespace PathQuery

variable {σ : Type}

/-- The answers on the elements of a value, without the null ones; null if the value is not of the
kind that is asked for. -/
def Reply.project (source : SourceKind) (f : Value → σ → Reply σ Value) (value : Value) (s : σ) :
    Reply σ Value :=
  match value.projected? source with
  | none => (.ok .null, s)
  | some elements =>
    andThen (forEach f elements s) fun vs s => (.ok (.array (vs.filter fun v => !v.isNull)), s)

namespace Node

open Reply

mutual

/-- How many expression references a query made from the node has. What stands in a node without
parts, or under another expression reference, is not counted. -/
def references : Node → Nat
  | ⟨kind, _, children, _⟩ =>
    match kind with
    | .literal | .field | .index | .slice | .current => 0
    | .expressionReference => 1
    | _ => referencesAll children

@[inherit_doc references]
def referencesAll : List Node → Nat
  | [] => 0
  | node :: nodes => node.references + referencesAll nodes

end

mutual

/-- The answer of a node on a value. The expression references in it are numbered from `site` on,
from left to right. -/
def eval (host : Host σ) (site : Nat) : Node → Value → σ → Reply σ Value
  | ⟨kind, value, children, source⟩, input, s =>
    match kind with
    | .literal => (.ok (value.getD .null), s)
    | .field =>
      match value with
      | some (.string name) => (.ok (input.field name), s)
      | _ => (.ok .null, s)
    | .index =>
      match value with
      | some (.integer i) => (.ok (input.item i), s)
      | _ => (.ok .null, s)
    | .current => (.ok input, s)
    | .subexpression | .condition =>
      match children with
      | [left, right] =>
        andThen (left.eval host site input s) fun v s =>
          if v.isNull then (.ok .null, s) else right.eval host (site + left.references) v s
      | _ => (.ok .null, s)
    | .pipe =>
      match children with
      | [left, right] =>
        andThen (left.eval host site input s) fun v s =>
          right.eval host (site + left.references) v s
      | _ => (.ok .null, s)
    | .or =>
      match children with
      | [left, right] =>
        andThen (left.eval host site input s) fun v s =>
          if v.truthy then (.ok v, s) else right.eval host (site + left.references) input s
      | _ => (.ok .null, s)
    | .and =>
      match children with
      | [left, right] =>
        andThen (left.eval host site input s) fun v s =>
          if v.truthy then right.eval host (site + left.references) input s else (.ok v, s)
      | _ => (.ok .null, s)
    | .not =>
      match children with
      | [child] => andThen (child.eval host site input s) fun v s => (.ok (.boolean !v.truthy), s)
      | _ => (.ok .null, s)
    | .flatten =>
      match children with
      | [child] => andThen (child.eval host site input s) fun v s => (.ok v.flatten, s)
      | _ => (.ok .null, s)
    | .projection =>
      match children with
      | [left, right] =>
        andThen (left.eval host site input s) fun v s =>
          project (source.getD .array)
            (fun element s => right.eval host (site + left.references) element s) v s
      | _ => (.ok .null, s)
    | .comparator =>
      match value, children with
      | some (.string name), [left, right] =>
        match Comparator.ofName? name with
        | some op =>
          andThen (left.eval host site input s) fun a s =>
            andThen (right.eval host (site + left.references) input s) fun b s =>
              (.ok (if op.compare a b then input else .null), s)
        | none => (.ok .null, s)
      | _, _ => (.ok .null, s)
    | .multiSelectList =>
      if input.isNull then (.ok .null, s)
      else andThen (evalAll host site children input s) fun vs s => (.ok (.array vs), s)
    | .multiSelectHash =>
      if input.isNull then (.ok .null, s)
      else andThen (evalPairs host site children input s) fun pairs s =>
        (.ok (.object (Entries.ofPairs pairs)), s)
    | .keyValPair =>
      match children with
      | [child] => child.eval host site input s
      | _ => (.ok .null, s)
    | .functionCall =>
      match value with
      | some (.string name) =>
        andThen (evalAll host site children input s) fun args s => host.invoke name args s
      | _ => (.ok .null, s)
    | .slice =>
      match value with
      | some (.array bounds) => host.invoke "slice" (input :: bounds) s
      | _ => (.ok .null, s)
    | .expressionReference =>
      match children with
      | [child] => (.ok (.expref (.site site) child), s)
      | _ => (.ok .null, s)
    | .unknown _ => (.ok .null, s)

/-- The answers of several nodes on one value, from left to right. -/
def evalAll (host : Host σ) (site : Nat) : List Node → Value → σ → Reply σ (List Value)
  | [], _, s => (.ok [], s)
  | node :: nodes, input, s =>
    andThen (node.eval host site input s) fun v s =>
      andThen (evalAll host (site + node.references) nodes input s) fun vs s => (.ok (v :: vs), s)

/-- The answers of the entries of a multi-select hash on one value, from left to right, each with
its key. -/
def evalPairs (host : Host σ) (site : Nat) :
    List Node → Value → σ → Reply σ (List (String × Value))
  | ⟨_, some (.string key), [child], _⟩ :: nodes, input, s =>
    andThen (child.eval host site input s) fun v s =>
      andThen (evalPairs host (site + child.references) nodes input s) fun pairs s =>
        (.ok ((key, v) :: pairs), s)
  | _, _, s => (.ok [], s)

end

end Node

namespace Query

/-- A query means what a node means, wherever the references are numbered from. -/
structure Means (host : Host σ) (node : Node) (query : Query) : Prop where
  references : query.references = node.references
  eval : ∀ site input s, (query.number site).eval host input s = node.eval host site input s

variable {host : Host σ}

theorem eval_projection (source : SourceKind) (left right : Query) (input : Value) (s : σ) :
    (projection source left right).eval host input s =
      Reply.andThen (left.eval host input s) (Reply.project source (right.eval host)) := by
  rw [Query.eval]
  rfl

theorem means_all {nodes : List Node} {queries : List Query}
    (h : List.Forall₂ (Means host) nodes queries) :
    referencesAll queries = Node.referencesAll nodes ∧ ∀ site input s,
      evalAll host (numberAll site queries) input s = Node.evalAll host site nodes input s := by
  induction h with
  | nil => exact ⟨rfl, fun _ _ _ => rfl⟩
  | cons hfirst _ ih =>
    obtain ⟨href, heval⟩ := ih
    refine ⟨?_, fun site input s => ?_⟩
    · rw [referencesAll, Node.referencesAll, hfirst.references, href]
    · simp only [numberAll, evalAll, Node.evalAll, hfirst.eval, hfirst.references, heval]

theorem means_pairs {nodes : List Node} {entries : List (String × Query)}
    (h : List.Forall₂ (EntryOf (Means host)) nodes entries) :
    referencesEntries entries = Node.referencesAll nodes ∧ ∀ site input s,
      evalEntries host (numberEntries site entries) input s =
        Node.evalPairs host site nodes input s := by
  induction h with
  | nil => exact ⟨rfl, fun _ _ _ => rfl⟩
  | @cons _ entry _ _ he _ ih =>
    obtain ⟨key, query⟩ := entry
    obtain ⟨child, source, rfl, hquery⟩ := he
    have hmeans : Means host child query := hquery
    obtain ⟨href, heval⟩ := ih
    refine ⟨?_, fun site input s => ?_⟩
    · simp only [referencesEntries, Node.referencesAll, Node.references, hmeans.references, href,
        Nat.add_zero]
    · simp only [numberEntries, evalEntries, Node.evalPairs, hmeans.eval, hmeans.references, heval]

/-! ### Constructs -/

section

attribute [local simp] number Query.eval Node.eval references Node.references Node.referencesAll

variable {child left right : Node} {query l r : Query} {value : Option Value}
  {source : Option SourceKind} {children : List Node}

theorem means_not (h : Means host child query) :
    Means host ⟨.not, value, [child], source⟩ (.not query) where
  references := by simp [h.references]
  eval site input s := by simp [h.eval]

theorem means_flatten (h : Means host child query) :
    Means host ⟨.flatten, value, [child], source⟩ (.flatten query) where
  references := by simp [h.references]
  eval site input s := by simp [h.eval]

theorem means_pair (h : Means host child query) :
    Means host ⟨.keyValPair, value, [child], source⟩ query where
  references := by simp [h.references]
  eval site input s := by simp [h.eval]

theorem means_subexpression {kind : Kind} (hk : kind = .subexpression ∨ kind = .condition)
    (hl : Means host left l) (hr : Means host right r) :
    Means host ⟨kind, value, [left, right], source⟩ (.subexpression l r) where
  references := by rcases hk with rfl | rfl <;> simp [hl.references, hr.references]
  eval site input s := by
    rcases hk with rfl | rfl <;> simp [hl.eval, hl.references, hr.eval]

theorem means_pipe (hl : Means host left l) (hr : Means host right r) :
    Means host ⟨.pipe, value, [left, right], source⟩ (.pipe l r) where
  references := by simp [hl.references, hr.references]
  eval site input s := by simp [hl.eval, hl.references, hr.eval]

theorem means_or (hl : Means host left l) (hr : Means host right r) :
    Means host ⟨.or, value, [left, right], source⟩ (.or l r) where
  references := by simp [hl.references, hr.references]
  eval site input s := by simp [hl.eval, hl.references, hr.eval]

theorem means_and (hl : Means host left l) (hr : Means host right r) :
    Means host ⟨.and, value, [left, right], source⟩ (.and l r) where
  references := by simp [hl.references, hr.references]
  eval site input s := by simp [hl.eval, hl.references, hr.eval]

theorem means_projection (hl : Means host left l) (hr : Means host right r) :
    Means host ⟨.projection, value, [left, right], source⟩
      (.projection (source.getD .array) l r) where
  references := by simp [hl.references, hr.references]
  eval site input s := by
    have heval : (r.number (site + left.references)).eval host =
        right.eval host (site + left.references) :=
      funext fun input => funext fun s => hr.eval _ input s
    rw [number, eval_projection, Node.eval, hl.eval, hl.references, heval]

theorem means_comparator {name : String} {op : Comparator} (hop : Comparator.ofName? name = some op)
    (hl : Means host left l) (hr : Means host right r) :
    Means host ⟨.comparator, some (.string name), [left, right], source⟩ (.comparator op l r) where
  references := by simp [hl.references, hr.references]
  eval site input s := by simp [hl.eval, hl.references, hr.eval, hop]

theorem means_list {items : List Query} (h : List.Forall₂ (Means host) children items) :
    Means host ⟨.multiSelectList, value, children, source⟩ (.list items) where
  references := (means_all h).1
  eval site input s := by simp [(means_all h).2]

theorem means_hash {entries : List (String × Query)}
    (h : List.Forall₂ (EntryOf (Means host)) children entries) :
    Means host ⟨.multiSelectHash, value, children, source⟩ (.hash entries) where
  references := (means_pairs h).1
  eval site input s := by simp [(means_pairs h).2]

theorem means_call {name : String} {args : List Query}
    (h : List.Forall₂ (Means host) children args) :
    Means host ⟨.functionCall, some (.string name), children, source⟩ (.call name args) where
  references := (means_all h).1
  eval site input s := by simp [(means_all h).2]

end

/-- A node that passes the check means what its query means. -/
theorem means_of_check {depth : Nat} {node : Node} {query : Query}
    (h : check depth node = .ok query) : Means host node query := by
  refine check_induction (motive := fun _ => Means host)
    ?literal ?field ?index ?slice ?current ?reference (fun _ => means_not) (fun _ => means_flatten)
    (fun _ => means_pair) (fun _ => means_subexpression) (fun _ => means_pipe) (fun _ => means_or)
    (fun _ => means_and) (fun _ => means_projection) (fun _ => means_comparator)
    (fun _ => means_list) (fun _ => means_hash) (fun _ => means_call) h
  case literal | field | index | slice | current | reference =>
    intros
    exact ⟨rfl, fun _ _ _ => rfl⟩

end Query

end PathQuery
