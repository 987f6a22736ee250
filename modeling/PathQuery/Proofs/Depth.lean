import Mathlib
import PathQuery.Proofs.Defects
import PathQuery.Proofs.FirstCall
import PathQuery.Proofs.Grammar
import PathQuery.Proofs.Spelling

/-!
# How deep a syntax tree is

Three depths are compared here: how deep the arrays and objects of a JSON value nest, how high the
tree is that is read from it, and the level that the check of a tree counts up.

* `Node.two_mul_height_le`: each level of a tree takes an object and an array of the JSON value;
* `Node.level_lt_of_mem_places`: the check comes to no level that is not in the tree, and to fewer
  levels where there are entries of a hash or expression references;
* `Json.spelled_of_parse` bounds the nesting of what a text spells.

Put together, no text spells a tree that is too deep for the check.
-/

namespace PathQuery

namespace Node

mutual

/-- The number of nodes on the longest way down from a node. -/
def height : Node → Nat
  | ⟨_, _, children, _⟩ => heightAll children + 1

/-- The greatest height of the nodes. -/
def heightAll : List Node → Nat
  | [] => 0
  | node :: nodes => max node.height (heightAll nodes)

end

theorem heightAll_le_iff {nodes : List Node} {n : Nat} :
    heightAll nodes ≤ n ↔ ∀ node ∈ nodes, node.height ≤ n := by
  induction nodes with
  | nil => simp [heightAll]
  | cons node nodes ih => rw [heightAll, Nat.max_le, ih, List.forall_mem_cons]

theorem height_le_succ_iff {node : Node} {n : Nat} :
    node.height ≤ n + 1 ↔ ∀ child ∈ node.children, child.height ≤ n := by
  obtain ⟨kind, value, children, source⟩ := node
  rw [height, Nat.succ_le_succ_iff, heightAll_le_iff]

theorem height_lt_of_mem {node child : Node} (h : child ∈ node.children) :
    child.height < node.height := by
  obtain ⟨kind, value, children, source⟩ := node
  rw [height, Nat.lt_succ_iff]
  exact heightAll_le_iff.1 (Nat.le_refl _) child h

theorem height_pos (node : Node) : 0 < node.height := by
  obtain ⟨kind, value, children, source⟩ := node
  exact Nat.succ_pos _

/-! ## From JSON to trees -/

/-- What stands under `children` is nested two levels less deep. -/
theorem nesting_of_mem_children {members : Entries Json} {items : List Json} {item : Json}
    (h : members.lookup "children" = some (.array items)) (hi : item ∈ items) :
    item.nesting + 2 ≤ (Json.object members).nesting := by
  have hitem : item.nesting ≤ Json.nestingItems items :=
    Json.nestingItems_le_iff.1 (Nat.le_refl _) item hi
  have harray : (Json.array items).nesting ≤ Json.nestingMembers members :=
    Json.nestingMembers_le_iff.1 (Nat.le_refl _) _ (mem_of_lookup_eq_some h)
  simp only [Json.nesting] at harray ⊢
  omega

theorem two_mul_height_le {json : Json} {node : Node} (h : ofJson json = .ok node) :
    2 * node.height ≤ json.nesting + 1 := by
  induction json using childInduction generalizing node with
  | step json ih =>
    cases json with
    | object members =>
      have hpos : 1 ≤ (Json.object members).nesting := Nat.succ_pos _
      suffices hh : node.height ≤ ((Json.object members).nesting - 1) / 2 + 1 by omega
      refine height_le_succ_iff.2 fun child hchild => ?_
      obtain ⟨-, -, hc, -⟩ := ofJson_eq_ok_iff.1 h
      rcases childrenOf_eq_ok hc with hnil | ⟨-, items, hl, hitems⟩
      · rw [hnil] at hchild
        cases hchild
      · obtain ⟨item, hi, hread⟩ := exists_of_mem_ofJsonItems hitems hchild
        have hheight := ih items hl item hi hread
        have hnesting := nesting_of_mem_children hl hi
        omega
    | _ => cases h

/-! ## From trees to levels -/

theorem height_lt_of_mem_operands {node child : Node} (h : child ∈ node.operands) :
    child.height < node.height := by
  rcases mem_operands h with hc | ⟨pair, hp, hc⟩
  · exact height_lt_of_mem hc
  · exact (height_lt_of_mem hc).trans (height_lt_of_mem hp)

theorem level_lt_of_mem_places {node other : Node} {level n : Nat}
    (h : .onLevel n other ∈ node.places level) : n < level + node.height := by
  induction node using operandInduction generalizing level with
  | step node ih =>
    rcases mem_places_cases h with ⟨rfl, -⟩ | ⟨child, hc, h⟩
    · have := height_pos node
      omega
    · have hlevel := ih child hc h
      have hheight := height_lt_of_mem_operands hc
      omega

theorem expect_ne_tooDeep (node : Node) (ok : Bool) (defect : Defect) :
    node.expect ok defect ≠ some .tooDeep := by
  cases ok <;> simp [expect]

theorem or_ne_tooDeep {first second : Option CompileError} (hf : first ≠ some .tooDeep)
    (hs : second ≠ some .tooDeep) : first.or second ≠ some .tooDeep := by
  cases first with
  | none => exact hs
  | some error => exact hf

/-- Nothing is too deep because of what it is. -/
theorem defect?_ne_tooDeep (node : Node) : node.defect? ≠ some .tooDeep := by
  rw [defect?]
  cases node.kind with
  | slice =>
    dsimp only
    split
    · exact node.expect_ne_tooDeep _ _
    · simp
  | comparator => exact or_ne_tooDeep (node.expect_ne_tooDeep _ _) (node.expect_ne_tooDeep _ _)
  | current | multiSelectList | multiSelectHash | unknown => simp
  | _ => exact node.expect_ne_tooDeep _ _

end Node

theorem Place.lt_level_of_tooDeep {place : Place} (h : place.defect? = some .tooDeep) :
    ∃ level node, place = .onLevel level node ∧ maxDepth < level := by
  cases place with
  | onLevel level node =>
    rw [defect?] at h
    split at h
    · next hl => exact ⟨level, node, rfl, hl⟩
    · exact absurd h node.defect?_ne_tooDeep
  | entry hash pair =>
    refine absurd h (Node.or_ne_tooDeep (hash.expect_ne_tooDeep _ _) (Node.or_ne_tooDeep ?_ ?_))
    · exact pair.expect_ne_tooDeep _ _
    · exact pair.expect_ne_tooDeep _ _

/-- A tree is too deep for the check only if it is high. -/
theorem Procedure.lt_height_of_tooDeep {node : Node} {options : Options} {first : Nat}
    (h : compile node options first = .error .tooDeep) : maxDepth < node.height := by
  have hcheck : Query.check 0 node = .error .tooDeep := by
    by_cases hn : isIdentifier options.name = true
    · rw [compile_eq_ofQuery node hn, Query.ofNode] at h
      cases hq : Query.check 0 node with
      | error e =>
        rw [hq] at h
        cases h
        rfl
      | ok query =>
        rw [hq] at h
        cases h
    · rw [compile, if_neg hn] at h
      cases h
  have hverdict := Query.settled_check node 0
  rw [hcheck, verdict] at hverdict
  cases hf : (node.places 1).findSome? Place.defect? with
  | none =>
    rw [hf] at hverdict
    cases hverdict
  | some error =>
    rw [hf] at hverdict
    cases hverdict
    obtain ⟨place, hp, hdefect⟩ := List.exists_of_findSome?_eq_some hf
    obtain ⟨level, other, rfl, hlevel⟩ := Place.lt_level_of_tooDeep hdefect
    have := Node.level_lt_of_mem_places hp
    omega

/-! ## From texts to verdicts -/

theorem Procedure.compile_ne_tooDeep {json : Json} {node : Node} (hj : json.nesting ≤ 127)
    (h : Node.ofJson json = .ok node) (options : Options) (first : Nat) :
    compile node options first ≠ .error .tooDeep := by
  intro hc
  have hread := Node.two_mul_height_le h
  have hdeep := lt_height_of_tooDeep hc
  simp only [maxDepth] at hdeep
  omega

theorem Node.ofJson_of_parse {text : String} {node : Node} (h : parse text = .ok node) :
    ∃ json, json.nesting ≤ 127 ∧ ofJson json = .ok node := by
  rw [parse] at h
  split at h
  · next json hj => exact ⟨json, (Json.spelled_of_parse hj).nesting_le, h⟩
  · cases h

namespace Command

theorem compile_ne_tooDeep (text : String) (options : Procedure.Options) :
    compile text options ≠ .error (.compile .tooDeep) := by
  intro h
  rw [compile] at h
  cases hn : Node.parse text with
  | error e =>
    rw [hn] at h
    cases h
  | ok node =>
    obtain ⟨json, hj, hread⟩ := Node.ofJson_of_parse hn
    rw [hn] at h
    change (Procedure.compile node options).mapError CommandError.compile = _ at h
    cases hc : Procedure.compile node options with
    | error e =>
      rw [hc] at h
      cases h
      exact Procedure.compile_ne_tooDeep hj hread options 0 hc
    | ok procedure =>
      rw [hc] at h
      cases h

/-- A JSON value that nests at most 127 deep, as a text spells it, gives a tree of height at most
64, which is far below what the check allows. -/
theorem tooDeep_unreachable :
    (∀ json node, Node.ofJson json = .ok node → node.height ≤ (json.nesting + 1) / 2) ∧
      (∀ json node, json.nesting ≤ 127 → Node.ofJson json = .ok node →
        node.height ≤ 64 ∧
        ∀ options first, Procedure.compile node options first ≠ .error .tooDeep) ∧
      (∀ text json, Json.parse? text = some json → json.nesting ≤ 127) ∧
      (∀ text node options first, Node.parse text = .ok node →
        Procedure.compile node options first ≠ .error .tooDeep) ∧
      (∀ text options, compile text options ≠ .error (.compile .tooDeep)) ∧
      ∀ text input, run text input ≠ .error (.compile .tooDeep) := by
  refine ⟨fun json node h => ?_, fun json node hj h => ⟨?_, ?_⟩, fun text json h => ?_,
    fun text node options first h => ?_, compile_ne_tooDeep, fun text input h => ?_⟩
  · have := Node.two_mul_height_le h
    omega
  · have := Node.two_mul_height_le h
    omega
  · exact Procedure.compile_ne_tooDeep hj h
  · exact (Json.spelled_of_parse h).nesting_le
  · obtain ⟨json, hj, hread⟩ := Node.ofJson_of_parse h
    exact Procedure.compile_ne_tooDeep hj hread options first
  · have hyields := yields_run Host.unbound () text input
    rw [h] at hyields
    cases hyields with
    | compile _ hn hc =>
      obtain ⟨json, hj, hread⟩ := Node.ofJson_of_parse hn
      exact Procedure.compile_ne_tooDeep hj hread {} 0 hc

/-- Sixty-three negations are as deep as a text can go, and the check takes 255. -/
theorem tooDeep_unreachable_negations :
    let negated (json : Json) : Json :=
      .object [("type", .string "not"), ("children", .array [json])]
    let json := negated^[63] (.object [("type", .string "current")])
    let node := Node.not^[63] .current
    (json.nesting = 127 ∧ Node.ofJson json = .ok node ∧ node.height = 64 ∧
        node.height ≤ (json.nesting + 1) / 2 ∧
        node.height ≤ 64 ∧
        ∀ options first, Procedure.compile node options first ≠ .error .tooDeep) ∧
      (∃ text json, Json.parse? text = some json ∧ json.nesting ≤ 127 ∧
        Node.parse text = .ok .current ∧
        Procedure.compile .current {} ≠ .error .tooDeep) ∧
      (Procedure.compile (Node.not^[255] .current) {} matches .ok _) ∧
      (Procedure.compile (Node.not^[256] .current) {} matches .error .tooDeep) := by
  intro negated json node
  have hj : json.nesting = 127 := by decide +kernel
  have hread (n : Nat) : Node.ofJson (negated^[n] (.object [("type", .string "current")])) =
      .ok (Node.not^[n] .current) := by
    induction n with
    | zero => exact Node.ofJson_eq_ok_iff.2 ⟨rfl, rfl, rfl, rfl⟩
    | succ n ih =>
      rw [Function.iterate_succ_apply', Function.iterate_succ_apply']
      refine Node.ofJson_eq_ok_iff.2 ⟨rfl, rfl, ?_, rfl⟩
      show Node.ofJsonItems [negated^[n] _] = _
      rw [Node.ofJsonItems, ih]
      rfl
  have htext : Json.parse? "\x7b\"type\": \"current\"\x7d" =
      some (.object [("type", .string "current")]) := by cbv
  have hnode : Node.parse "\x7b\"type\": \"current\"\x7d" = .ok .current := by cbv
  obtain ⟨hheight, hshallow, hnesting, hcompile, -⟩ := tooDeep_unreachable
  refine ⟨⟨hj, hread 63, by decide +kernel, hheight json node (hread 63), ?_⟩, ?_,
    by decide +kernel, by decide +kernel⟩
  · exact hshallow json node (Nat.le_of_eq hj) (hread 63)
  · exact ⟨_, _, htext, hnesting _ _ htext, hnode, hcompile _ _ {} 0 hnode⟩

end Command

end PathQuery
