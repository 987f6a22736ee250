import Mathlib
import PathQuery.Host.Tracing
import PathQuery.Proofs.Constructs
import PathQuery.Proofs.Correctness

/-!
# Plain paths

A host may evaluate the bodies of expression references by walking the tree, without any code. On
plain paths, which are all that the tracing host can evaluate, this comes to the same as compiling
the path and calling the procedure:

* `Node.isPath`: the trees that are made of fields, indices, literals, the value itself and chains;
* `Tracing.evaluate_of_check`: the walk succeeds on every such tree that passes the check, with the
  result that the tree means, by induction on the tree;
* `Procedure.call_eq_evaluate`: the procedure of the tree gives this result under any host, and so
  does an expression reference to the tree under the tracing host.
-/

namespace PathQuery

/-- A tree of which every node is a field, an index, a literal, the value itself or a chain. -/
def Node.isPath (node : Node) : Bool :=
  node.everywhere fun node =>
    [.field, .index, .literal, .current, .subexpression].contains node.kind

namespace Tracing

open Query

/-- The second node of a chain is evaluated only on a result that is not null. -/
theorem evaluate_subexpression (value : Option Value) (left right : Node)
    (source : Option SourceKind) (input : Value) :
    evaluate ⟨.subexpression, value, [left, right], source⟩ input =
      (evaluate left input).bind fun v => if v.isNull then .ok .null else evaluate right v := by
  rw [evaluate, evaluateChain]
  rfl

/-- The node is evaluated to what it means, and means the same under all hosts. -/
def Walks (node : Node) : Prop :=
  ∀ input, ∃ result, evaluate node input = .ok result ∧
    ∀ (σ : Type) (host : Host σ) (site : Nat) (s : σ),
      node.eval host site input s = (.ok result, s)

theorem walks_subexpression {value : Option Value} {left right : Node} {source : Option SourceKind}
    (hl : Walks left) (hr : Walks right) :
    Walks ⟨.subexpression, value, [left, right], source⟩ := by
  intro input
  obtain ⟨v, hev, hv⟩ := hl input
  obtain ⟨w, hew, hw⟩ := hr v
  refine ⟨if v.isNull then .null else w, ?_, fun σ host site s => ?_⟩
  · rw [evaluate_subexpression, hev, Except.bind, hew]
    split
    · rfl
    · rfl
  · simp only [Node.eval, hv, Reply.andThen, hw]
    split
    · rfl
    · rfl

/-- A path that passes the check is evaluated to what it means. -/
theorem evaluate_of_check {depth : Nat} {node : Node} {query : Query}
    (hc : check depth node = .ok query) (hp : node.isPath = true) : Walks node := by
  refine check_induction (motive := fun _ node _ => node.isPath = true → Walks node)
    ?literal ?field ?index ?slice ?current ?reference ?not ?flatten ?pair ?subexpression ?pipe ?or
    ?and ?projection ?comparator ?list ?hash ?call hc hp
  case literal | field | index | current =>
    intros
    exact fun _ => ⟨_, rfl, fun _ _ _ _ => rfl⟩
  case subexpression =>
    rintro _ kind _ left right _ _ _ _ (rfl | rfl) hl hr h
    · exact walks_subexpression (hl (Node.everywhere_of_mem h rfl (by simp)))
        (hr (Node.everywhere_of_mem h rfl (by simp)))
    · cases Node.self_of_everywhere h
  case slice | reference | not | flatten | pair | pipe | or | and | projection | comparator | list |
      hash | call =>
    intros
    cases Node.self_of_everywhere ‹_›

end Tracing

namespace Procedure

/-- The name of a procedure is an identifier. -/
theorem isIdentifier_of_compile {node : Node} {options : Options} {first : Nat}
    {procedure : Procedure} (h : compile node options first = .ok procedure) :
    isIdentifier options.name = true := by
  by_contra hn
  rw [compile, if_neg hn] at h
  cases h

/-- An expression reference compiles whatever its body is, and gives a reference to the body. -/
theorem call_reference {options : Options} (hn : isIdentifier options.name = true) (first : Nat)
    (node : Node) :
    ∃ reference, compile (.reference node) options first = .ok reference ∧
      ∀ (σ : Type) (host : Host σ) (root : Value) (s : σ),
        reference.call host root s = (.ok (.expref (.site first) node), s) := by
  have hc : compile (.reference node) options first =
      .ok (ofQuery options (.reference first node)) := by
    have hq : Query.ofNode first (.reference node) = .ok (.reference first node) := by
      rw [Query.ofNode, Node.reference, Node.ofKind, Node.withChildren, Query.check,
        if_neg (by decide)]
      rfl
    rw [compile_eq_ofQuery _ hn, hq]
    rfl
  refine ⟨_, hc, fun σ host root s => ?_⟩
  rw [call_of_compile hc]
  rfl

/-- On a plain path that compiles, the tree walk of the tracing host and the procedure, under any
host, both succeed with the same result. An expression reference to the path, applied by the tracing
host, gives this result too. -/
theorem call_eq_evaluate {node : Node} {options : Options} {first : Nat} {procedure : Procedure}
    (hc : compile node options first = .ok procedure) (hp : node.isPath = true) (input : Value) :
    ∃ result, (∀ trace, Host.tracing.evaluate node input trace = (.ok result, trace)) ∧
      (∀ (σ : Type) (host : Host σ) (s : σ), procedure.call host input s = (.ok result, s)) ∧
      ∃ reference, compile (.reference node) options first = .ok reference ∧
        ∀ root trace, ∃ origin,
          reference.call .tracing root trace = (.ok (.expref origin node), trace) ∧
          ∀ later, Host.tracing.apply origin node input later = (.ok result, later) := by
  obtain ⟨checked, hcheck⟩ := check_of_compile hc
  obtain ⟨result, hwalk, hmeans⟩ := Tracing.evaluate_of_check hcheck hp input
  have hevaluate : ∀ trace, Host.tracing.evaluate node input trace = (.ok result, trace) := by
    intro trace
    simp only [Host.tracing, hwalk]
  obtain ⟨reference, hr, hcall⟩ := call_reference (isIdentifier_of_compile hc) first node
  refine ⟨result, hevaluate, fun σ host s => ?_, reference, hr, fun root trace => ?_⟩
  · rw [call_of_compile hc, hmeans]
  · exact ⟨.site first, hcall _ _ _ _, hevaluate⟩

/-- A chain that ends with an item from the end of an array, and one that asks for the item furthest
from the end. -/
theorem call_eq_evaluate_rows :
    let path (i : Int) : Node := .binary .subexpression (.field "rows") (.index i)
    let root : Value := .object [("rows", .array [.integer 7, .integer 8])]
    ∃ near far, compile (path (-2)) {} = .ok near ∧
      compile (path (-9223372036854775808)) {} = .ok far ∧
      Host.tracing.evaluate (path (-2)) root [] = (.ok (.integer 7), []) ∧
      near.call Host.unbound root () = (.ok (.integer 7), ()) ∧
      Host.tracing.evaluate (path (-9223372036854775808)) root [] = (.ok .null, []) ∧
      far.call Host.unbound root () = (.ok .null, ()) := by
  intro path root
  obtain ⟨near, hn⟩ : ∃ near, compile (path (-2)) {} = .ok near := ⟨_, by cbv⟩
  obtain ⟨far, hf⟩ : ∃ far, compile (path (-9223372036854775808)) {} = .ok far := ⟨_, by cbv⟩
  have hnear : Host.tracing.evaluate (path (-2)) root [] = (.ok (.integer 7), []) := by cbv
  have hfar : Host.tracing.evaluate (path (-9223372036854775808)) root [] = (.ok .null, []) := by
    cbv
  obtain ⟨v, hv, hcallv, -⟩ := call_eq_evaluate hn (by cbv) root
  obtain ⟨w, hw, hcallw, -⟩ := call_eq_evaluate hf (by cbv) root
  cases hnear.symm.trans (hv [])
  cases hfar.symm.trans (hw [])
  exact ⟨near, far, hn, hf, hnear, hcallv _ _ _, hfar, hcallw _ _ _⟩

end Procedure

end PathQuery
