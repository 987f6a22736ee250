import Mathlib
import PathQuery.Procedure
import PathQuery.Proofs.Checked

/-!
# The first defect of a syntax tree

Compiling comes to the places of a tree in a fixed order and stops at the first one that has a
defect. Both are said here without the check:

* `Node.places`: the places of a tree, a node before its children and the children from left to
  right, each node with the level it stands on;
* `Place.defect?`: what is wrong at a place, on its own;
* `Procedure.compile_verdict`: compiling succeeds or fails as the first defect says, once the name
  of the procedure is an identifier.
-/

namespace PathQuery

/-- A place that the check of a syntax tree comes to. -/
inductive Place where
  /-- A node, with the level that it stands on. -/
  | onLevel (level : Nat) (node : Node)
  /-- An entry of the multi-select hash `hash`. It is no level of its own. -/
  | entry (hash pair : Node)

namespace Node

mutual

/-- The places of a node that stands on level `level`, from left to right. What stands under an
expression reference, or under a node that takes no operands, is not looked at. -/
def places (level : Nat) : Node → List Place
  | ⟨kind, value, children, source⟩ =>
    let node : Node := ⟨kind, value, children, source⟩
    .onLevel level node ::
      match kind with
      | .literal | .field | .index | .slice | .current | .expressionReference => []
      | .multiSelectHash => entryPlaces node (level + 1) children
      | _ => placesAll (level + 1) children

@[inherit_doc places]
def placesAll (level : Nat) : List Node → List Place
  | [] => []
  | node :: nodes => node.places level ++ placesAll level nodes

/-- The entries of a multi-select hash, each before its expressions, which stand on level `level`.
-/
def entryPlaces (hash : Node) (level : Nat) : List Node → List Place
  | [] => []
  | ⟨kind, value, children, source⟩ :: pairs =>
    .entry hash ⟨kind, value, children, source⟩ ::
      (placesAll level children ++ entryPlaces hash level pairs)

end

/-- Reports a node that does not have what its kind calls for. -/
def expect (node : Node) (ok : Bool) (defect : Defect) : Option CompileError :=
  if ok then none else some (.malformedNode node defect)

def expectString (node : Node) : Option CompileError :=
  node.expect node.name?.isSome .noStringValue

def expectChildren (node : Node) (count : Nat) : Option CompileError :=
  node.expect (node.children.length == count) (.childCount count node.children.length)

/-- What is wrong with a node itself, whatever its children are like. The value is looked at before
the number of children. -/
def defect? (node : Node) : Option CompileError :=
  match node.kind with
  | .literal => node.expect node.value.isSome .literalWithoutValue
  | .field | .functionCall => node.expectString
  | .index => node.expect (node.value matches some (.integer _)) .noIntegerIndex
  | .slice =>
    match node.value with
    | some (.array [start, stop, step]) =>
      node.expect ([start, stop, step].all fun bound => bound matches .integer _ | .null)
        .sliceBoundType
    | _ => some (.malformedNode node .noSliceBounds)
  | .comparator =>
    (node.expect (node.name?.bind Comparator.ofName?).isSome .unknownComparator).or
      (node.expectChildren 2)
  | .subexpression | .pipe | .or | .and | .projection | .condition => node.expectChildren 2
  | .not | .flatten | .keyValPair | .expressionReference => node.expectChildren 1
  | .current | .multiSelectList | .multiSelectHash => none
  | .unknown name => some (.unknownNode name node)

end Node

/-- What is wrong at a place. The level of a node comes before anything else about it. -/
def Place.defect? : Place → Option CompileError
  | .onLevel level node => if maxDepth < level then some .tooDeep else node.defect?
  | .entry hash pair =>
    (hash.expect (pair.kind == .keyValPair) .entryNotPair).or
      (pair.expectString.or (pair.expectChildren 1))

/-- Fails with the error, if there is one. -/
def report : Option CompileError → Except CompileError Unit
  | some error => .error error
  | none => .ok ()

/-- Fails with the first defect at one of the places, if there is one. -/
def verdict (places : List Place) : Except CompileError Unit :=
  report (places.findSome? Place.defect?)

/-! ## The places below a node -/

namespace Node

/-- The nodes that the check comes to one level below a node. Those of a multi-select hash are the
expressions of its entries. -/
def operands (node : Node) : List Node :=
  match node.kind with
  | .literal | .field | .index | .slice | .current | .expressionReference => []
  | .multiSelectHash => node.children.flatMap Node.children
  | _ => node.children

theorem mem_operands {node child : Node} (h : child ∈ node.operands) :
    child ∈ node.children ∨ ∃ pair ∈ node.children, child ∈ pair.children := by
  obtain ⟨kind, value, children, source⟩ := node
  cases kind with
  | literal | field | index | slice | current | expressionReference => cases h
  | multiSelectHash => exact .inr (List.mem_flatMap.1 h)
  | _ => exact .inl h

@[elab_as_elim]
theorem operandInduction {motive : Node → Prop}
    (step : ∀ node : Node, (∀ child ∈ node.operands, motive child) → motive node) (node : Node) :
    motive node := by
  induction node using Node.induction with
  | step node ih =>
    refine step node fun child hc => ?_
    rcases mem_operands hc with hc | ⟨pair, hp, hc⟩
    · exact (ih child hc).1
    · exact (ih pair hp).2 child hc

theorem mem_placesAll {place : Place} {level : Nat} {nodes : List Node} :
    place ∈ placesAll level nodes ↔ ∃ node ∈ nodes, place ∈ node.places level := by
  induction nodes with
  | nil => simp [placesAll]
  | cons node nodes ih => simp [placesAll, ih]

theorem exists_of_mem_entryPlaces {hash node : Node} {level n : Nat} {pairs : List Node}
    (h : .onLevel n node ∈ entryPlaces hash level pairs) :
    ∃ child ∈ pairs.flatMap Node.children, .onLevel n node ∈ child.places level := by
  induction pairs with
  | nil => simp [entryPlaces] at h
  | cons pair pairs ih =>
    obtain ⟨kind, value, children, source⟩ := pair
    simp only [entryPlaces, List.mem_cons, reduceCtorEq, false_or, List.mem_append] at h
    rcases h with h | h
    · obtain ⟨child, hc, hplace⟩ := mem_placesAll.1 h
      exact ⟨child, List.mem_append_left _ hc, hplace⟩
    · obtain ⟨child, hc, hplace⟩ := ih h
      exact ⟨child, List.mem_append_right _ hc, hplace⟩

/-- A node of the places is the node itself, or it is one of the places of an operand. -/
theorem mem_places_cases {node other : Node} {level n : Nat}
    (h : .onLevel n other ∈ node.places level) :
    n = level ∧ other = node ∨
      ∃ child ∈ node.operands, .onLevel n other ∈ child.places (level + 1) := by
  obtain ⟨kind, value, children, source⟩ := node
  rw [places.eq_def] at h
  rcases List.mem_cons.1 h with h | h
  · exact .inl (Place.onLevel.inj h)
  refine .inr ?_
  cases kind with
  | literal | field | index | slice | current | expressionReference => cases h
  | multiSelectHash => exact exists_of_mem_entryPlaces h
  | _ => exact mem_placesAll.1 h

end Node

/-! ## Identifiers -/

open RegularExpression in
/-- The characters from `first` to `last`. -/
def between (first last : Char) : RegularExpression Char :=
  (List.range' first.toNat (last.toNat + 1 - first.toNat)).foldr
    (fun n rest => char (Char.ofNat n) + rest) 0

open RegularExpression in
/-- A letter or underscore, then any number of letters, digits and underscores. -/
def identifier : RegularExpression Char :=
  (between 'A' 'Z' + between 'a' 'z' + char '_') *
    (between 'A' 'Z' + between 'a' 'z' + between '0' '9' + char '_').star

/-- The expression matches single characters, namely those that satisfy `p`. -/
def Singles (r : RegularExpression Char) (p : Char → Prop) : Prop :=
  ∀ cs, cs ∈ r.matches' ↔ ∃ c, p c ∧ cs = [c]

section

variable {r t : RegularExpression Char} {p q : Char → Prop}

theorem singles_char (a : Char) : Singles (.char a) (· = a) := by
  intro cs
  rw [RegularExpression.matches'_char]
  exact ⟨fun h => ⟨a, rfl, h⟩, by rintro ⟨_, rfl, h⟩; exact h⟩

theorem Singles.add (hr : Singles r p) (ht : Singles t q) : Singles (r + t) fun c => p c ∨ q c := by
  intro cs
  rw [RegularExpression.matches'_add, Language.mem_add, hr cs, ht cs]
  simp only [or_and_right, exists_or]

theorem singles_between {first last : Char} (h : last.toNat < 0xD800) :
    Singles (between first last) fun c => first.toNat ≤ c.toNat ∧ c.toNat ≤ last.toNat := by
  have hrange (ns : List Nat) (hns : ∀ n ∈ ns, n < 0xD800) :
      Singles (ns.foldr (fun n rest => .char (Char.ofNat n) + rest) 0) fun c => c.toNat ∈ ns := by
    induction ns with
    | nil =>
      intro cs
      simp only [List.foldr_nil, RegularExpression.matches'_zero, List.not_mem_nil, false_and,
        exists_false, iff_false]
      exact Language.notMem_zero cs
    | cons n ns ih =>
      obtain ⟨hn, hns⟩ := List.forall_mem_cons.1 hns
      have hc (c : Char) : c = Char.ofNat n ↔ c.toNat = n := by
        have hv : n.isValidChar := .inl hn
        constructor
        · rintro rfl
          rw [Char.toNat_ofNat, if_pos hv]
        · rintro rfl
          exact (Char.ofNat_toNat c).symm
      intro cs
      rw [List.foldr_cons, (singles_char _).add (ih hns) cs]
      simp only [hc, List.mem_cons]
  intro cs
  rw [between, hrange _ (fun n hn => by have := List.mem_range'_1.1 hn; omega) cs]
  simp only [List.mem_range'_1]
  refine exists_congr fun c => and_congr_left fun _ => ?_
  omega

theorem Singles.mem_star (h : Singles r p) (cs : List Char) :
    cs ∈ r.star.matches' ↔ ∀ c ∈ cs, p c := by
  rw [RegularExpression.matches'_star, Language.mem_kstar]
  constructor
  · rintro ⟨parts, rfl, hparts⟩ c hc
    obtain ⟨part, hp, hc⟩ := List.mem_flatten.1 hc
    obtain ⟨d, hd, rfl⟩ := (h part).1 (hparts part hp)
    rwa [List.mem_singleton.1 hc]
  · intro hcs
    refine ⟨cs.map fun c => [c], ?_, fun part hp => ?_⟩
    · rw [← List.flatMap_def, List.flatMap_singleton']
    · obtain ⟨c, hc, rfl⟩ := List.mem_map.1 hp
      exact (h [c]).2 ⟨c, hcs c hc, rfl⟩

end

theorem isAlpha_iff (c : Char) : c.isAlpha = true ↔
    ('A'.toNat ≤ c.toNat ∧ c.toNat ≤ 'Z'.toNat) ∨ 'a'.toNat ≤ c.toNat ∧ c.toNat ≤ 'z'.toNat := by
  simp only [Char.isAlpha, Char.isUpper, Char.isLower, Bool.or_eq_true, Bool.and_eq_true,
    decide_eq_true_eq, UInt32.le_iff_toNat_le, ge_iff_le]
  exact Iff.rfl

/-- The names that a procedure may have are the identifiers. -/
theorem isIdentifier_iff (name : String) :
    Procedure.isIdentifier name = true ↔ identifier.rmatch name.toList = true := by
  have hfirst := ((@singles_between 'A' 'Z' (by decide)).add
    (@singles_between 'a' 'z' (by decide))).add (singles_char '_')
  have hrest := (((@singles_between 'A' 'Z' (by decide)).add
    (@singles_between 'a' 'z' (by decide))).add (@singles_between '0' '9' (by decide))).add
    (singles_char '_')
  rw [RegularExpression.rmatch_iff_matches', identifier, RegularExpression.matches'_mul,
    Language.mem_mul]
  simp only [hfirst _, hrest.mem_star, Procedure.isIdentifier]
  cases name.toList with
  | nil => simp
  | cons c cs =>
    simp only [Bool.and_eq_true, Bool.or_eq_true, beq_iff_eq, List.all_eq_true, Char.isAlphanum,
      isAlpha_iff, Char.isDigit_iff_toNat]
    constructor
    · rintro ⟨hc, hcs⟩
      exact ⟨[c], ⟨c, hc, rfl⟩, cs, hcs, rfl⟩
    · rintro ⟨_, ⟨d, hd, rfl⟩, ds, hds, h⟩
      obtain ⟨rfl, rfl⟩ := List.cons.inj h
      exact ⟨hd, hds⟩

/-! ## The check and its verdict -/

theorem report_or (first second : Option CompileError) :
    report (first.or second) = report first >>= fun _ => report second := by
  cases first <;> rfl

theorem verdict_cons (place : Place) (rest : List Place) :
    verdict (place :: rest) = report place.defect? >>= fun _ => verdict rest := by
  rw [verdict, List.findSome?_cons]
  cases place.defect? <;> rfl

theorem verdict_append (first second : List Place) :
    verdict (first ++ second) = verdict first >>= fun _ => verdict second := by
  rw [verdict, List.findSome?_append, report_or]
  rfl

/-- Whether a computation succeeds, and its error if it does not. -/
def settled {α : Type} (x : Except CompileError α) : Except CompileError Unit := x.map fun _ => ()

theorem settled_map {α β : Type} (f : α → β) (x : Except CompileError α) :
    settled (x.map f) = settled x := by
  cases x <;> rfl

/-- If what follows succeeds or fails whatever it is given, so does the whole. -/
theorem settled_bind {α β : Type} {x : Except CompileError α} {f : α → Except CompileError β}
    {rest : Except CompileError Unit} (h : ∀ a, settled (f a) = rest) :
    settled (x >>= f) = settled x >>= fun _ => rest := by
  cases x with
  | error e => rfl
  | ok a => exact h a

theorem settled_bind_pure {α β : Type} (x : Except CompileError α) (f : α → β) :
    settled (x >>= fun a => pure (f a)) = settled x := by
  cases x <;> rfl

namespace Node

/-! ### Values -/

variable (node : Node)

theorem settled_literalValue :
    settled node.literalValue = report (node.expect node.value.isSome .literalWithoutValue) := by
  rw [literalValue]
  cases node.value <;> rfl

theorem settled_stringValue : settled node.stringValue = report node.expectString := by
  rw [stringValue, expectString]
  cases node.name? <;> rfl

theorem settled_indexValue : settled node.indexValue =
    report (node.expect (node.value matches some (.integer _)) .noIntegerIndex) := by
  rw [indexValue]
  split <;> simp_all [settled, Except.map, expect, report]

theorem settled_operator : settled node.operator =
    report (node.expect (node.name?.bind Comparator.ofName?).isSome .unknownComparator) := by
  rw [operator]
  cases node.name?.bind Comparator.ofName? <;> rfl

theorem settled_sliceBound (bound : Value) : settled (node.sliceBound bound) =
    report (node.expect (bound matches .integer _ | .null) .sliceBoundType) := by
  cases bound <;> rfl

theorem expect_and (a b : Bool) (defect : Defect) :
    node.expect (a && b) defect = (node.expect a defect).or (node.expect b defect) := by
  cases a <;> cases b <;> rfl

/-- The bounds of a slice have one defect between them, so it does not matter which is looked at
first. -/
theorem settled_sliceQuery (hk : node.kind = .slice) :
    settled node.sliceQuery = report node.defect? := by
  by_cases h : ∃ start stop step, node.value = some (.array [start, stop, step])
  · obtain ⟨start, stop, step, hv⟩ := h
    have hd : node.defect? =
        node.expect ([start, stop, step].all fun bound => bound matches .integer _ | .null)
          .sliceBoundType := by
      simp only [defect?, hk, hv]
    rw [hd, sliceQuery, hv]
    simp only [List.all_cons, List.all_nil, Bool.and_true, expect_and, report_or,
      ← settled_sliceBound]
    refine settled_bind fun _ => settled_bind fun _ => ?_
    exact settled_bind_pure ..
  · have hd : node.defect? = some (.malformedNode node .noSliceBounds) := by
      rw [defect?, hk]
      dsimp only
      split
      · exact absurd ⟨_, _, _, ‹_›⟩ h
      · rfl
    rw [hd, sliceQuery]
    split
    · exact absurd ⟨_, _, _, ‹_›⟩ h
    · rfl

end Node

namespace Query

/-! ### Several nodes -/

theorem settled_checkAll {nodes : List Node} {depth : Nat}
    (ih : ∀ node ∈ nodes, settled (check depth node) = verdict (node.places (depth + 1))) :
    settled (checkAll depth nodes) = verdict (Node.placesAll (depth + 1) nodes) := by
  induction nodes with
  | nil => rfl
  | cons node nodes ihn =>
    obtain ⟨hn, hns⟩ := List.forall_mem_cons.1 ih
    rw [checkAll, Node.placesAll, verdict_append, ← hn, ← ihn hns]
    exact settled_bind fun _ => settled_bind_pure ..

theorem settled_checkPairs {hash : Node} {pairs : List Node} {depth : Nat}
    (ih : ∀ pair ∈ pairs, ∀ child ∈ pair.children,
      settled (check depth child) = verdict (child.places (depth + 1))) :
    settled (checkPairs hash depth pairs) = verdict (Node.entryPlaces hash (depth + 1) pairs) := by
  induction pairs with
  | nil => rfl
  | cons pair pairs ihp =>
    obtain ⟨hp, hps⟩ := List.forall_mem_cons.1 ih
    obtain ⟨kind, value, children, source⟩ := pair
    rw [checkPairs, Node.entryPlaces, verdict_cons, verdict_append, Place.defect?, report_or,
      report_or, ← ihp hps, ← Node.settled_stringValue]
    by_cases hk : kind = .keyValPair
    · cases hk
      rw [if_neg (not_not.2 rfl)]
      generalize hs : Node.stringValue _ = key
      rcases key with e | key
      · rfl
      rcases children with _ | ⟨child, _ | ⟨other, others⟩⟩
      · rfl
      · rw [Node.placesAll, Node.placesAll, List.append_nil, ← hp child (by simp)]
        show settled (check depth child >>= fun query => checkPairs hash depth pairs >>=
          fun entries => pure ((key, query) :: entries)) = _
        exact settled_bind fun _ => settled_bind_pure ..
      · rfl
    · rw [if_pos hk, Node.expect, beq_eq_false_iff_ne.2 hk]
      rfl

/-! ### Nodes by their rules -/

section

variable {depth : Nat} {node : Node} (hd : ¬maxDepth ≤ depth)

include hd

/-- A node fails where its rule does, and else as the rule says. -/
theorem settled_check_rule {α : Type} {x : Except CompileError α} {rule : α → Rule}
    {rest : Except CompileError Unit} (hr : node.rule = x.map rule)
    (h : ∀ a, node.rule = .ok (rule a) → settled (check depth node) = rest) :
    settled (check depth node) = settled x >>= fun _ => rest := by
  cases x with
  | error e =>
    obtain ⟨kind, value, children, source⟩ := node
    rw [check, if_neg hd, hr]
    rfl
  | ok a => exact h a hr

theorem settled_check_leaf {query : Query} (hr : node.rule = .ok (.leaf query)) :
    settled (check depth node) = .ok () := by
  obtain ⟨kind, value, children, source⟩ := node
  rw [check, if_neg hd, hr]
  rfl

theorem settled_check_quoted {make : Node → Query} (hr : node.rule = .ok (.quoted make)) :
    settled (check depth node) = report (node.expectChildren 1) >>= fun _ => verdict [] := by
  obtain ⟨kind, value, children, source⟩ := node
  rw [check, if_neg hd, hr]
  rcases children with _ | ⟨child, _ | ⟨other, others⟩⟩
  · rfl
  · rfl
  · rfl

theorem settled_check_pairs {make : List (String × Query) → Query}
    (ih : ∀ pair ∈ node.children, ∀ child ∈ pair.children,
      settled (check (depth + 1) child) = verdict (child.places (depth + 2)))
    (hr : node.rule = .ok (.pairs make)) :
    settled (check depth node) = verdict (Node.entryPlaces node (depth + 2) node.children) := by
  obtain ⟨kind, value, children, source⟩ := node
  rw [check, if_neg hd, hr, ← settled_checkPairs ih]
  exact settled_bind_pure ..

variable (ih : ∀ child ∈ node.children,
  settled (check (depth + 1) child) = verdict (child.places (depth + 2)))

include ih

theorem settled_check_unary {make : Query → Query} (hr : node.rule = .ok (.unary make)) :
    settled (check depth node) = report (node.expectChildren 1) >>= fun _ =>
      verdict (Node.placesAll (depth + 2) node.children) := by
  obtain ⟨kind, value, children, source⟩ := node
  rw [check, if_neg hd, hr]
  rcases children with _ | ⟨child, _ | ⟨other, others⟩⟩
  · rfl
  · rw [Node.placesAll, Node.placesAll, List.append_nil, ← ih child (by simp)]
    exact settled_bind_pure ..
  · rfl

theorem settled_check_binary {make : Query → Query → Query} (hr : node.rule = .ok (.binary make)) :
    settled (check depth node) = report (node.expectChildren 2) >>= fun _ =>
      verdict (Node.placesAll (depth + 2) node.children) := by
  obtain ⟨kind, value, children, source⟩ := node
  rw [check, if_neg hd, hr]
  rcases children with _ | ⟨left, _ | ⟨right, _ | ⟨other, others⟩⟩⟩
  · rfl
  · rfl
  · simp only [Node.placesAll, List.append_nil, verdict_append, ← ih left (by simp),
      ← ih right (by simp)]
    show settled (check _ left >>= fun l => check _ right >>= fun r => pure (make l r)) = _
    exact settled_bind fun _ => settled_bind_pure ..
  · rfl

theorem settled_check_items {make : List Query → Query} (hr : node.rule = .ok (.items make)) :
    settled (check depth node) = verdict (Node.placesAll (depth + 2) node.children) := by
  obtain ⟨kind, value, children, source⟩ := node
  rw [check, if_neg hd, hr, ← settled_checkAll ih]
  exact settled_bind_pure ..

end

/-- The check of a node that stands below `depth` others fails with the first defect of its places,
and else succeeds. -/
theorem settled_check (node : Node) (depth : Nat) :
    settled (check depth node) = verdict (node.places (depth + 1)) := by
  induction node using Node.induction generalizing depth with
  | step node ih =>
    obtain ⟨kind, value, children, source⟩ := node
    by_cases hd : maxDepth ≤ depth
    · rw [check, if_pos hd, Node.places.eq_def, verdict_cons, Place.defect?,
        if_pos (Nat.lt_succ_of_le hd)]
      rfl
    have hp : Place.defect? (.onLevel (depth + 1) ⟨kind, value, children, source⟩) =
        Node.defect? ⟨kind, value, children, source⟩ := by
      rw [Place.defect?, if_neg (by omega)]
    have ihc := fun child hc => (ih child hc).1 (depth + 1)
    rw [Node.places.eq_def, verdict_cons, hp]
    cases kind with
    | literal =>
      rw [Node.defect?, ← Node.settled_literalValue]
      exact settled_check_rule hd rfl fun _ hr => settled_check_leaf hd hr
    | field =>
      rw [Node.defect?, ← Node.settled_stringValue]
      exact settled_check_rule hd rfl fun _ hr => settled_check_leaf hd hr
    | index =>
      rw [Node.defect?, ← Node.settled_indexValue]
      exact settled_check_rule hd rfl fun _ hr => settled_check_leaf hd hr
    | slice =>
      rw [← Node.settled_sliceQuery _ rfl]
      exact settled_check_rule hd rfl fun _ hr => settled_check_leaf hd hr
    | current => exact settled_check_leaf hd rfl
    | expressionReference => exact settled_check_quoted hd rfl
    | not | flatten | keyValPair => exact settled_check_unary hd ihc rfl
    | subexpression | condition | pipe | or | and | projection =>
      exact settled_check_binary hd ihc rfl
    | comparator =>
      rw [Node.defect?, report_or, bind_assoc, ← Node.settled_operator]
      exact settled_check_rule hd rfl fun _ hr => settled_check_binary hd ihc hr
    | multiSelectList => exact settled_check_items hd ihc rfl
    | functionCall =>
      rw [Node.defect?, ← Node.settled_stringValue]
      exact settled_check_rule hd rfl fun _ hr => settled_check_items hd ihc hr
    | multiSelectHash =>
      exact settled_check_pairs hd (fun pair hp child hc => (ih pair hp).2 child hc (depth + 1)) rfl
    | unknown name =>
      rw [check, if_neg hd]
      rfl

end Query

namespace Procedure

/-- Compiling a tree fails at a name that is no identifier, whatever the tree is like; else it fails
with the first defect of the tree, which stands on level 1, and succeeds if there is none. -/
theorem compile_verdict (node : Node) (options : Options) (first : Nat) :
    (compile node options first).map (fun _ => ()) =
      if identifier.rmatch options.name.toList then verdict (node.places 1)
      else .error (.invalidName options.name) := by
  rw [compile]
  by_cases h : isIdentifier options.name = true
  · rw [if_pos h, if_pos ((isIdentifier_iff _).1 h), ← Query.settled_check]
    exact (settled_map ..).trans (settled_map ..)
  · rw [if_neg h, if_neg fun hr => h ((isIdentifier_iff _).2 hr)]
    rfl

end Procedure

end PathQuery
