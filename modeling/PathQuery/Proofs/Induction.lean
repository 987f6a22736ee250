import PathQuery.Code.Basic
import PathQuery.Json.Basic
import PathQuery.Query.Basic

/-!
# Induction on code, queries and data

Statements hold blocks of statements, queries hold lists of queries and of keyed queries, and so do
values and JSON values. The principles here take a list in one piece: the induction hypothesis is
about each of its members. `induction` uses them without being told, so a proof has one case for
each constructor, and what it needs of a list is a lemma of its own.
-/

namespace PathQuery

@[elab_as_elim, induction_eliminator]
theorem Stmt.induction {motive : Stmt → Prop}
    (assign : ∀ target expr, motive (.assign target expr))
    (branch : ∀ test yes no, (∀ stmt ∈ yes, motive stmt) → (∀ stmt ∈ no, motive stmt) →
      motive (.branch test yes no))
    (forEach : ∀ item source body, (∀ stmt ∈ body, motive stmt) →
      motive (.forEach item source body))
    (push : ∀ list item, motive (.push list item))
    (extend : ∀ list items, motive (.extend list items))
    (insert : ∀ object key item, motive (.insert object key item)) :
    ∀ stmt, motive stmt := by
  intro stmt
  refine Stmt.rec assign branch forEach push extend insert ?nil ?cons stmt
  case nil => exact List.forall_mem_nil _
  case cons => exact fun _ _ head tail => List.forall_mem_cons.2 ⟨head, tail⟩

@[elab_as_elim, induction_eliminator]
theorem Query.induction {motive : Query → Prop}
    (literal : ∀ value, motive (.literal value))
    (field : ∀ name, motive (.field name))
    (index : ∀ i, motive (.index i))
    (current : motive .current)
    (subexpression : ∀ left right, motive left → motive right →
      motive (.subexpression left right))
    (pipe : ∀ left right, motive left → motive right → motive (.pipe left right))
    (or : ∀ left right, motive left → motive right → motive (.or left right))
    (and : ∀ left right, motive left → motive right → motive (.and left right))
    (not : ∀ query, motive query → motive (.not query))
    (flatten : ∀ query, motive query → motive (.flatten query))
    (projection : ∀ source left right, motive left → motive right →
      motive (.projection source left right))
    (comparator : ∀ op left right, motive left → motive right →
      motive (.comparator op left right))
    (list : ∀ items, (∀ item ∈ items, motive item) → motive (.list items))
    (hash : ∀ entries, (∀ entry ∈ entries, motive entry.2) → motive (.hash entries))
    (call : ∀ name args, (∀ arg ∈ args, motive arg) → motive (.call name args))
    (slice : ∀ start stop step, motive (.slice start stop step))
    (reference : ∀ site node, motive (.reference site node)) :
    ∀ query, motive query := by
  intro query
  refine Query.rec literal field index current subexpression pipe or and not flatten projection
    comparator list hash call slice reference ?nil ?cons ?noEntry ?entry ?pair query
  case nil => exact List.forall_mem_nil _
  case cons => exact fun _ _ head tail => List.forall_mem_cons.2 ⟨head, tail⟩
  case noEntry => exact List.forall_mem_nil _
  case entry => exact fun _ _ head tail => List.forall_mem_cons.2 ⟨head, tail⟩
  case pair => exact fun _ _ query => query

@[elab_as_elim, induction_eliminator]
theorem Json.induction {motive : Json → Prop}
    (null : motive .null)
    (bool : ∀ b, motive (.bool b))
    (integer : ∀ n, motive (.integer n))
    (float : ∀ x, motive (.float x))
    (string : ∀ s, motive (.string s))
    (array : ∀ items, (∀ item ∈ items, motive item) → motive (.array items))
    (object : ∀ members, (∀ member ∈ members, motive member.2) → motive (.object members)) :
    ∀ json, motive json := by
  intro json
  refine Json.rec null bool integer float string array object ?nil ?cons ?noMember ?member ?pair
    json
  case nil => exact List.forall_mem_nil _
  case cons => exact fun _ _ head tail => List.forall_mem_cons.2 ⟨head, tail⟩
  case noMember => exact List.forall_mem_nil _
  case member => exact fun _ _ head tail => List.forall_mem_cons.2 ⟨head, tail⟩
  case pair => exact fun _ _ json => json

/-- Nothing is said of the node of an expression reference. -/
@[elab_as_elim, induction_eliminator]
theorem Value.induction {motive : Value → Prop}
    (null : motive .null)
    (boolean : ∀ b, motive (.boolean b))
    (integer : ∀ n, motive (.integer n))
    (float : ∀ x, motive (.float x))
    (string : ∀ s, motive (.string s))
    (array : ∀ items, (∀ item ∈ items, motive item) → motive (.array items))
    (object : ∀ entries, (∀ entry ∈ entries, motive entry.2) → motive (.object entries))
    (expref : ∀ origin node, motive (.expref origin node)) :
    ∀ value, motive value := by
  intro value
  refine @Value.rec motive (fun _ => True) (fun items => ∀ item ∈ items, motive item)
    (fun entries => ∀ entry ∈ entries, motive entry.2) (fun _ => True) (fun _ => True)
    (fun entry => motive entry.2) null boolean integer float string array object
    (fun origin node _ => expref origin node) (fun _ _ _ _ _ _ => trivial) ?nil ?cons ?noEntry
    ?entry trivial (fun _ _ => trivial) trivial (fun _ _ _ _ => trivial) ?pair value
  case nil => exact List.forall_mem_nil _
  case cons => exact fun _ _ head tail => List.forall_mem_cons.2 ⟨head, tail⟩
  case noEntry => exact List.forall_mem_nil _
  case entry => exact fun _ _ head tail => List.forall_mem_cons.2 ⟨head, tail⟩
  case pair => exact fun _ _ value => value

end PathQuery
