import Mathlib
import PathQuery.Proofs.Alike
import PathQuery.Proofs.Forests

/-!
# Code is known by what its listing is read as

A forest is divided at its marks and groups in one way only, so that readable code is known by what
its listing is read as, up to the numbers of its slots and expression references: an operand
(`Operand.alike_of_tree`), an expression (`Expr.alike_of_forest`), a test (`Test.alike_of_forest`)
and a list of statements (`Stmt.alikeAll_of_forestAll`).
-/

namespace PathQuery

open PathQuery.Tree (word mark applied)

/-! ## Slots of one name -/

/-- The two slots have one name. -/
def SlotNames.Same (slots others : SlotNames) (a b : Slot) : Prop :=
  ∃ name, slots[a.index]? = some name ∧ others[b.index]? = some name

namespace SlotNames

variable {slots others : SlotNames} {a b : Slot}

theorem same_of_name_eq (ha : a.index < slots.length) (hb : b.index < others.length)
    (h : slots.name a = others.name b) : slots.Same others a b := by
  rw [name, name, List.getD_eq_getElem _ _ ha, List.getD_eq_getElem _ _ hb] at h
  exact ⟨slots[a.index], List.getElem?_eq_getElem ha, by rw [h, List.getElem?_eq_getElem hb]⟩

theorem Same.name_eq (h : slots.Same others a b) : slots.name a = others.name b := by
  obtain ⟨name, ha, hb⟩ := h
  simp only [SlotNames.name, List.getD_eq_getElem?_getD, ha, hb]

theorem Same.left_lt (h : slots.Same others a b) : a.index < slots.length := by
  obtain ⟨name, ha, -⟩ := h
  exact (List.getElem?_eq_some_iff.1 ha).1

theorem Same.right_lt (h : slots.Same others a b) : b.index < others.length := by
  obtain ⟨name, -, hb⟩ := h
  exact (List.getElem?_eq_some_iff.1 hb).1

/-- No slot has the name of two others. -/
theorem biUnique_same (hs : slots.Legible) (ho : others.Legible) :
    Relator.BiUnique (slots.Same others) := by
  constructor
  · intro a b c hac hbc
    exact hs.name_inj hac.left_lt hbc.left_lt (hac.name_eq.trans hbc.name_eq.symm)
  · intro a b c hab hac
    exact ho.name_inj hab.right_lt hac.right_lt (hab.name_eq.symm.trans hac.name_eq)

theorem Legible.same_value (hs : slots.Legible) (ho : others.Legible) (hn : 0 < slots.length)
    (hm : 0 < others.length) : slots.Same others .value .value :=
  same_of_name_eq hn hm (hs.value.trans ho.value.symm)

/-- The running result has its name to itself. -/
theorem Same.eq_value_iff (hs : slots.Legible) (ho : others.Legible) (h : slots.Same others a b) :
    a = .value ↔ b = .value := by
  have hvalue := hs.same_value ho (Nat.zero_lt_of_lt h.left_lt) (Nat.zero_lt_of_lt h.right_lt)
  constructor
  · rintro rfl
    exact (biUnique_same hs ho).2 h hvalue
  · rintro rfl
    exact (biUnique_same hs ho).1 h hvalue

end SlotNames

/-! ## Words -/

theorem word_inj {s t : String} (h : word s = word t) : s = t := by
  simpa [String.toList_inj] using h

/-- The literal of a value is not read as a name. -/
theorem Value.Portable.tree_ne_word {value : Value} (h : value.Portable) {name : String}
    (hn : IsName name.toList) : value.tree ≠ word name := by
  intro heq
  obtain ⟨c, chars, hc⟩ := List.exists_cons_of_ne_nil hn.ne_nil
  obtain ⟨hdigit, hminus⟩ := hn.head c (by rw [hc]; rfl)
  have hfirst : ¬(c.isDigit = true ∨ c = '-') := by simp [hdigit, hminus]
  rcases Format.word_cases h.valid_toJson.floats heq with
    ⟨hmem, -⟩ | ⟨n, -, hword⟩ | ⟨x, hx, -, hword⟩
  · exact hn.notMem_scalarWords hmem
  · exact hfirst ((integer_chars n).2 c (by rw [← hword, hc]; exact List.mem_cons_self))
  · obtain ⟨-, ⟨d, hd, hfloat⟩, -⟩ := floatLayout.word_render x
    have hrender : floatLiteral x = floatLayout.render x := if_pos hx
    rw [← hrender, ← show name.toList = (floatLiteral x).toList from hword, hc] at hd
    cases hd
    exact hfirst hfloat.symm

theorem eq_of_append_mark {c : Char} {xs ys zs ws : List Tree} (hx : mark c ∉ xs) (hy : mark c ∉ ys)
    (h : xs ++ mark c :: zs = ys ++ mark c :: ws) : xs = ys ∧ zs = ws := by
  induction xs generalizing ys with
  | nil =>
    cases ys with
    | nil => exact ⟨rfl, (List.cons.inj h).2⟩
    | cons y ys => exact absurd (List.mem_cons.2 (.inl (List.cons.inj h).1)) hy
  | cons x xs ih =>
    cases ys with
    | nil => exact absurd (List.mem_cons.2 (.inl (List.cons.inj h).1.symm)) hx
    | cons y ys =>
      obtain ⟨hhead, htail⟩ := List.cons.inj h
      obtain ⟨hxs, hzs⟩ := ih (fun hm => hx (List.mem_cons_of_mem _ hm))
        (fun hm => hy (List.mem_cons_of_mem _ hm)) htail
      exact ⟨by rw [hhead, hxs], hzs⟩

theorem same_pair {slots others : SlotNames} {a b c d : Slot}
    (hn : ∀ slot ∈ [a, c], slot.index < slots.length)
    (hm : ∀ slot ∈ [b, d], slot.index < others.length)
    (hab : word (slots.name a) = word (others.name b))
    (hcd : word (slots.name c) = word (others.name d)) :
    slots.Same others a b ∧ slots.Same others c d := by
  simp only [List.forall_mem_cons] at hn hm
  exact ⟨SlotNames.same_of_name_eq hn.1 hm.1 (word_inj hab),
    SlotNames.same_of_name_eq hn.2.1 hm.2.1 (word_inj hcd)⟩

/-! ## Expressions and tests -/

section

variable {slots others : SlotNames} (hs : slots.Legible) (ho : others.Legible)

include hs ho

theorem Operand.alike_of_tree {x y : Operand} (hx : ∀ value, x = .literal value → value.Portable)
    (hy : ∀ value, y = .literal value → value.Portable)
    (hxs : ∀ slot ∈ x.slots, slot.index < slots.length)
    (hys : ∀ slot ∈ y.slots, slot.index < others.length) (heq : x.tree slots = y.tree others) :
    x.Alike (slots.Same others) y := by
  cases x with
  | slot a =>
    have ha := hxs a List.mem_cons_self
    cases y with
    | slot b =>
      exact .slot (SlotNames.same_of_name_eq ha (hys b List.mem_cons_self) (word_inj heq))
    | literal value => exact absurd heq.symm ((hy value rfl).tree_ne_word (hs.isName_name ha))
  | literal value =>
    cases y with
    | slot b =>
      have hb := hys b List.mem_cons_self
      exact absurd heq ((hx value rfl).tree_ne_word (ho.isName_name hb))
    | literal other =>
      rw [(hx value rfl).tree_inj (hy other rfl) heq]
      exact .literal other

theorem Expr.alike_list {items more : List Operand}
    (hx : ∀ value, .literal value ∈ items → value.Portable)
    (hy : ∀ value, .literal value ∈ more → value.Portable)
    (hxs : ∀ slot ∈ items.flatMap Operand.slots, slot.index < slots.length)
    (hys : ∀ slot ∈ more.flatMap Operand.slots, slot.index < others.length)
    (heq : (items.map fun item => [item.tree slots]) = more.map fun item => [item.tree others]) :
    List.Forall₂ (Operand.Alike (slots.Same others)) items more := by
  induction items generalizing more with
  | nil =>
    cases more with
    | nil => exact .nil
    | cons _ _ => cases heq
  | cons x items ih =>
    cases more with
    | nil => cases heq
    | cons y more =>
      obtain ⟨hhead, htail⟩ := List.cons.inj heq
      rw [List.flatMap_cons, List.forall_mem_append] at hxs hys
      refine .cons (Operand.alike_of_tree hs ho ?_ ?_ hxs.1 hys.1 (List.cons.inj hhead).1)
        (ih (fun v hv => hx v (List.mem_cons_of_mem _ hv))
          (fun v hv => hy v (List.mem_cons_of_mem _ hv)) hxs.2 hys.2 htail)
      · rintro value rfl
        exact hx value List.mem_cons_self
      · rintro value rfl
        exact hy value List.mem_cons_self

end

theorem Operand.tree_ne_mark (slots : SlotNames) (operand : Operand) (c : Char) :
    operand.tree slots ≠ mark c := by
  cases operand with
  | slot a => simp [tree]
  | literal value => exact Format.tree_ne_mark _ c

theorem isItem_of_mem_map_tree (slots : SlotNames) (items : List Operand) :
    ∀ trees ∈ items.map fun item => [item.tree slots], Tree.IsItem trees := by
  refine List.forall_mem_map.2 fun item _ => ?_
  simpa [Tree.IsItem] using (item.tree_ne_mark slots ',').symm

theorem Text.tree_inj {s t : String} (h : Text.tree s = Text.tree t) : s = t :=
  Value.clear_literalFormat.quoted_inj h

/-- An offset is known by its sign and its size. -/
theorem eq_of_sign_natAbs {m n : Int}
    (hsign : (if m < 0 then "-" else "+") = if n < 0 then "-" else "+")
    (hsize : toString m.natAbs = toString n.natAbs) : m = n := by
  rw [Nat.toString_eq_repr, Nat.toString_eq_repr] at hsize
  have habs := Nat.repr_injective hsize
  split at hsign <;> split at hsign
  · omega
  · simp at hsign
  · simp at hsign
  · omega

theorem compare_forest_inj {slots others : SlotNames} {op op' : Comparator} {a b c d : Slot}
    (heq : (Expr.compare op a b).forest slots = (Expr.compare op' c d).forest others) :
    op = op' ∧ slots.name a = others.name c ∧ slots.name b = others.name d := by
  cases op <;> cases op' <;>
    simp [Expr.forest, Comparator.isOrdering, Comparator.symbol, String.toList_inj] at heq ⊢ <;>
    tauto

/-- No other expression is read as a comparison is. -/
theorem forest_ne_compare {slots others : SlotNames} {op : Comparator} {a b : Slot} {x : Expr}
    (hx : ∀ op' c d, x ≠ .compare op' c d) :
    x.forest others ≠ (Expr.compare op a b).forest slots := by
  cases x with
  | compare op' c d => exact absurd rfl (hx op' c d)
  | _ => cases op <;> simp [Expr.forest, Comparator.isOrdering, Comparator.symbol]

section

variable {slots others : SlotNames} (hs : slots.Legible) (ho : others.Legible)

include hs ho

/-- An expression is known by what it is read as, given whether it is assigned to the running
result. -/
theorem Expr.alike_of_forest {x y : Expr} {result : Bool} (hx : x.Readable result)
    (hy : y.Readable result) (hxs : ∀ slot ∈ x.slots, slot.index < slots.length)
    (hys : ∀ slot ∈ y.slots, slot.index < others.length)
    (heq : x.forest slots = y.forest others) :
    x.Alike (slots.Same others) (fun _ _ => True) y := by
  have same {a b : Slot} (ha : a ∈ x.slots) (hb : b ∈ y.slots)
      (h : slots.name a = others.name b) : slots.Same others a b :=
    SlotNames.same_of_name_eq (hxs a ha) (hys b hb) h
  cases x with
  | literal v =>
    cases y with
    | literal w =>
      rw [hx.2.tree_inj hy.2 (List.cons.inj heq).1]
      exact .literal w
    | load b =>
      have hb := hys b List.mem_cons_self
      exact absurd (List.cons.inj heq).1 (hx.2.tree_ne_word (ho.isName_name hb))
    | list _ => exact absurd (hx.1.symm.trans hy.1) (by decide)
    | emptyObject => exact absurd (hx.1.symm.trans hy) (by decide)
    | _ => simp [↓forest_ne_compare, forest] at heq
  | load a =>
    cases y with
    | literal w =>
      have ha := hxs a List.mem_cons_self
      exact absurd (List.cons.inj heq).1.symm (hy.2.tree_ne_word (hs.isName_name ha))
    | load b =>
      exact .load (same List.mem_cons_self List.mem_cons_self (word_inj (List.cons.inj heq).1))
    | _ => simp [↓forest_ne_compare, forest] at heq
  | field a name =>
    cases y with
    | field b other =>
      simp only [forest, List.cons.injEq, Tree.group.injEq, true_and, and_true] at heq
      rw [Text.tree_inj heq.2]
      exact .field other (same List.mem_cons_self List.mem_cons_self (word_inj heq.1))
    | _ => simp [↓forest_ne_compare, forest] at heq
  | element a i =>
    cases y with
    | element b j =>
      simp only [forest, List.cons.injEq, Tree.group.injEq, true_and, and_true] at heq
      refine .element (same List.mem_cons_self List.mem_cons_self (word_inj heq.1))
        (Operand.alike_of_tree hs ho ?_ ?_ (fun s h => hxs s (List.mem_cons_of_mem _ h))
          (fun s h => hys s (List.mem_cons_of_mem _ h)) heq.2)
      · rintro value rfl
        exact hx
      · rintro value rfl
        exact hy
    | _ => simp [↓forest_ne_compare, forest] at heq
  | offset a m =>
    cases y with
    | offset b n =>
      simp only [forest, List.cons_append, List.nil_append, List.cons.injEq, Tree.group.injEq,
        true_and, and_true] at heq
      rw [eq_of_sign_natAbs (word_inj heq.2.1) (word_inj heq.2.2)]
      exact .offset n (same List.mem_cons_self List.mem_cons_self (word_inj heq.1))
    | _ => simp [↓forest_ne_compare, forest] at heq
  | list items =>
    cases y with
    | literal _ => exact absurd (hy.1.symm.trans hx.1) (by decide)
    | list more =>
      simp only [forest, List.cons.injEq, Tree.group.injEq, true_and, and_true] at heq
      have hitems := Tree.commas_inj (isItem_of_mem_map_tree slots items)
        (isItem_of_mem_map_tree others more) heq
      exact .list (Expr.alike_list hs ho hx.2 hy.2 hxs hys hitems)
    | _ => simp [↓forest_ne_compare, forest] at heq
  | emptyObject =>
    cases y with
    | literal _ => exact absurd (hy.1.symm.trans hx) (by decide)
    | emptyObject => exact .emptyObject
    | _ => simp [↓forest_ne_compare, forest] at heq
  | compare op a b =>
    cases y with
    | compare op' c d =>
      obtain ⟨rfl, hleft, hright⟩ := compare_forest_inj heq
      exact .compare op (same List.mem_cons_self List.mem_cons_self hleft)
        (same (List.mem_cons_of_mem _ List.mem_cons_self)
          (List.mem_cons_of_mem _ List.mem_cons_self) hright)
    | _ => exact absurd heq.symm (forest_ne_compare (by simp))
  | not a =>
    cases y with
    | not b =>
      simp only [forest, List.cons.injEq, Tree.group.injEq, true_and, and_true] at heq
      exact .not (same List.mem_cons_self List.mem_cons_self (word_inj heq))
    | _ => simp [↓forest_ne_compare, forest] at heq
  | call name a =>
    cases y with
    | call other b =>
      simp only [forest, List.cons.injEq, Tree.group.injEq, true_and, and_true] at heq
      rw [Text.tree_inj heq.1]
      exact .call other (same List.mem_cons_self List.mem_cons_self (word_inj heq.2))
    | _ => simp [↓forest_ne_compare, forest] at heq
  | expref site node =>
    cases y with
    | expref other node' =>
      simp only [forest, List.cons.injEq, Tree.group.injEq, true_and, and_true] at heq
      rw [hx.tree_inj hy heq]
      exact .expref node' trivial
    | _ => simp [↓forest_ne_compare, forest] at heq

end

section

variable {slots others : SlotNames} {t u : Test} {yes more rest tail : List Tree}

attribute [local simp] Test.forest Test.slot Test.Positive

theorem Test.eq_not_or_positive (t : Test) : (∃ u, t = .not u) ∨ t.Positive := by
  cases t <;> simp

theorem Test.alike_of_positive (ht : t.Positive) (hu : u.Positive)
    (hts : t.slot.index < slots.length) (hus : u.slot.index < others.length)
    (heq : t.forest slots ++ .group '\x7b' yes :: rest =
      u.forest others ++ .group '\x7b' more :: tail) :
    t.Alike (slots.Same others) u ∧ yes = more ∧ rest = tail := by
  cases t <;> cases u <;> simp [String.toList_inj] at ht hu hts hus heq <;>
    exact ⟨by constructor; exact SlotNames.same_of_name_eq hts hus heq.1, heq.2⟩

theorem Test.alike_of_negative (ht : t.Positive) (hu : u.Positive)
    (hts : t.slot.index < slots.length) (hus : u.slot.index < others.length)
    (heq : (Test.not t).forest slots ++ .group '\x7b' yes :: rest =
      (Test.not u).forest others ++ .group '\x7b' more :: tail) :
    t.Alike (slots.Same others) u ∧ yes = more ∧ rest = tail := by
  cases t <;> cases u <;> simp [String.toList_inj] at ht hu hts hus heq <;>
    exact ⟨by constructor; exact SlotNames.same_of_name_eq hts hus heq.1, heq.2⟩

theorem Test.negative_ne_positive (ht : t.Positive) (hu : u.Positive) :
    (Test.not t).forest slots ++ .group '\x7b' yes :: rest ≠
      u.forest others ++ .group '\x7b' more :: tail := by
  cases t <;> cases u <;> simp at ht hu ⊢

/-- A test is known by what it is read as, up to the block that follows it. -/
theorem Test.alike_of_forest (ht : t.Readable) (hu : u.Readable)
    (hts : t.slot.index < slots.length) (hus : u.slot.index < others.length)
    (heq : t.forest slots ++ .group '\x7b' yes :: rest =
      u.forest others ++ .group '\x7b' more :: tail) :
    t.Alike (slots.Same others) u ∧ yes = more ∧ rest = tail := by
  rcases t.eq_not_or_positive with ⟨t, rfl⟩ | hpos
  · rcases u.eq_not_or_positive with ⟨u, rfl⟩ | hpos'
    · obtain ⟨halike, hrest⟩ := Test.alike_of_negative ht hu hts hus heq
      exact ⟨.not halike, hrest⟩
    · exact absurd heq (Test.negative_ne_positive ht hpos')
  · rcases u.eq_not_or_positive with ⟨u, rfl⟩ | hpos'
    · exact absurd heq.symm (Test.negative_ne_positive hu hpos)
    · exact Test.alike_of_positive hpos hpos' hts hus heq

end

/-- What a test is read as starts with a word or a negation. -/
theorem Test.exists_forest_eq_cons (slots : SlotNames) (t : Test) :
    ∃ first trees, t.forest slots = first :: trees ∧
      (first = mark '!' ∨ ∃ chars, first = .atom (.word chars)) := by
  rcases t.eq_not_or_positive with ⟨t, rfl⟩ | hpos
  · cases t <;> simp [forest]
  · cases t <;> simp [forest, Positive] at hpos ⊢

/-! ## Statements -/

namespace Stmt

/-- What follows a branch does not go on with its alternative. -/
def NoElse (trees : List Tree) : Prop :=
  ∀ alternative rest, trees ≠ word "else" :: .group '\x7b' alternative :: rest

theorem noElse_forestAll (slots : SlotNames) (block : List Stmt) :
    NoElse (forestAll slots block) := by
  intro alternative rest
  cases block with
  | nil => simp [forestAll]
  | cons stmt stmts => cases stmt <;> simp [forestAll, forest]

theorem semicolon_notMem_forest (slots : SlotNames) (x : Expr) : mark ';' ∉ x.forest slots := by
  cases x with
  | literal value => simpa [Expr.forest, Value.tree] using (Format.tree_ne_mark _ ';').symm
  | compare op a b =>
    cases op <;> simp [Expr.forest, Comparator.isOrdering, Comparator.symbol]
  | _ => simp [Expr.forest]

/-- The trees that an alternative is read as. -/
def elseForest (slots : SlotNames) : List Stmt → List Tree
  | [] => []
  | no => [word "else", .group '\x7b' (forestAll slots no)]

theorem forest_branch (slots : SlotNames) (test : Test) (yes no : List Stmt) :
    (branch test yes no).forest slots =
      word "if" :: test.forest slots ++
        .group '\x7b' (forestAll slots yes) :: elseForest slots no := by
  cases no <;> rfl

variable {slots others : SlotNames}

/-- What a branch is read as is no other statement. -/
theorem branch_forest_ne {test : Test} {yes no : List Stmt} {other : Stmt} {rest tail : List Tree}
    (h : ∀ test' yes' no', other ≠ .branch test' yes' no') :
    (branch test yes no).forest slots ++ rest ≠ other.forest others ++ tail := by
  obtain ⟨first, trees, htest, hfirst⟩ := test.exists_forest_eq_cons slots
  rw [forest_branch, htest]
  cases other with
  | branch test' yes' no' => exact absurd rfl (h test' yes' no')
  | _ => rcases hfirst with rfl | ⟨chars, rfl⟩ <;> simp [forest]

theorem forestAll_eq_of_else {no no' : List Stmt} {rest tail : List Tree} (hr : NoElse rest)
    (ht : NoElse tail) (heq : elseForest slots no ++ rest = elseForest others no' ++ tail) :
    forestAll slots no = forestAll others no' ∧ rest = tail := by
  cases no with
  | nil =>
    cases no' with
    | nil => exact ⟨rfl, heq⟩
    | cons stmt stmts => exact absurd heq (hr _ _)
  | cons stmt stmts =>
    cases no' with
    | nil => exact absurd heq.symm (ht _ _)
    | cons stmt' stmts' =>
      simp only [elseForest, List.cons_append, List.nil_append, List.cons.injEq, Tree.group.injEq,
        true_and] at heq
      exact heq

theorem mem_slotsAll {block : List Stmt} {stmt : Stmt} {slot : Slot} (hm : stmt ∈ block)
    (hs : slot ∈ stmt.slots) : slot ∈ slotsAll block := by
  obtain ⟨before, after, rfl⟩ := List.append_of_mem hm
  rw [slotsAll_append, slotsAll]
  exact List.mem_append_right _ (List.mem_append_left _ hs)

/-- The statement is known by what it is read as, up to what follows. -/
def Known (slots others : SlotNames) (stmt : Stmt) : Prop :=
  ∀ other : Stmt, other.Readable → (∀ slot ∈ other.slots, slot.index < others.length) →
    ∀ rest tail, NoElse rest → NoElse tail →
    stmt.forest slots ++ rest = other.forest others ++ tail →
    stmt.Alike (slots.Same others) (fun _ _ => True) other ∧ rest = tail

theorem alikeAll_of_known {block other : List Stmt} (hb : ∀ stmt ∈ block, stmt.Known slots others)
    (hr : ReadableAll other) (hn : ∀ slot ∈ slotsAll other, slot.index < others.length)
    (heq : forestAll slots block = forestAll others other) :
    AlikeAll (slots.Same others) (fun _ _ => True) block other := by
  induction block generalizing other with
  | nil =>
    cases other with
    | nil => exact .nil
    | cons stmt stmts => cases stmt <;> simp [forestAll, forest] at heq
  | cons stmt stmts ih =>
    cases other with
    | nil => cases stmt <;> simp [forestAll, forest] at heq
    | cons stmt' stmts' =>
      obtain ⟨hfirst, hrest⟩ := List.forall_mem_cons.1 hb
      obtain ⟨hn', hns'⟩ := List.forall_mem_append.1 hn
      obtain ⟨halike, htail⟩ := hfirst stmt' hr.1 hn' _ _ (noElse_forestAll slots stmts)
        (noElse_forestAll others stmts') heq
      exact .cons halike (ih hrest hr.2 hns' htail)

theorem known_branch {test : Test} {yes no : List Stmt} (ht : test.Readable)
    (hts : test.slot.index < slots.length) (hy : ∀ stmt ∈ yes, stmt.Known slots others)
    (hn : ∀ stmt ∈ no, stmt.Known slots others) : (branch test yes no).Known slots others := by
  intro other hro hno rest tail hrest htail heq
  cases other with
  | branch test' yes' no' =>
    obtain ⟨hts', hblocks⟩ := List.forall_mem_cons.1 hno
    obtain ⟨hys', hns'⟩ := List.forall_mem_append.1 hblocks
    simp only [forest_branch, List.cons_append, List.append_assoc, List.cons.injEq, true_and] at heq
    obtain ⟨htest, hyes, helse⟩ := Test.alike_of_forest ht hro.1 hts hts' heq
    obtain ⟨hno, hrest⟩ := forestAll_eq_of_else hrest htail helse
    exact ⟨.branch htest (alikeAll_of_known hy hro.2.1 hys' hyes)
      (alikeAll_of_known hn hro.2.2 hns' hno), hrest⟩
  | _ => exact absurd heq (branch_forest_ne (by simp))

theorem known_forEach {item source : Slot} {body : List Stmt} (hi : item.index < slots.length)
    (hs : source.index < slots.length) (hb : ∀ stmt ∈ body, stmt.Known slots others) :
    (forEach item source body).Known slots others := by
  intro other hro hno rest tail _ _ heq
  cases other with
  | forEach item' source' body' =>
    obtain ⟨hi', hrest'⟩ := List.forall_mem_cons.1 hno
    obtain ⟨hs', hbody'⟩ := List.forall_mem_cons.1 hrest'
    simp only [forest, List.cons_append, List.nil_append, List.cons.injEq, Tree.group.injEq,
      true_and, and_true] at heq
    obtain ⟨hitem, hsource, hbody, hrest⟩ := heq
    exact ⟨.forEach (SlotNames.same_of_name_eq hi hi' (word_inj hitem))
      (SlotNames.same_of_name_eq hs hs' (word_inj hsource))
      (alikeAll_of_known hb hro hbody' hbody), hrest⟩
  | branch _ _ _ => exact absurd heq.symm (branch_forest_ne (by simp))
  | _ => simp [forest] at heq

theorem known_push {list item : Slot}
    (hn : ∀ slot ∈ (push list item).slots, slot.index < slots.length) :
    (push list item).Known slots others := by
  intro other hro hno rest tail _ _ heq
  cases other with
  | push list' item' =>
    simp only [forest, List.cons_append, List.nil_append, List.cons.injEq, Tree.group.injEq,
      true_and, and_true] at heq
    obtain ⟨⟨hlist, hitem⟩, hrest⟩ := heq
    obtain ⟨hlist, hitem⟩ := same_pair hn hno hlist hitem
    exact ⟨.push hlist hitem, hrest⟩
  | branch _ _ _ => exact absurd heq.symm (branch_forest_ne (by simp))
  | _ => simp [forest] at heq

theorem known_extend {list items : Slot}
    (hn : ∀ slot ∈ (extend list items).slots, slot.index < slots.length) :
    (extend list items).Known slots others := by
  intro other hro hno rest tail _ _ heq
  cases other with
  | extend list' items' =>
    simp only [forest, List.cons_append, List.nil_append, List.cons.injEq, Tree.group.injEq,
      true_and, and_true] at heq
    obtain ⟨⟨hlist, hitems⟩, hrest⟩ := heq
    obtain ⟨hlist, hitems⟩ := same_pair hn hno hlist hitems
    exact ⟨.extend hlist hitems, hrest⟩
  | branch _ _ _ => exact absurd heq.symm (branch_forest_ne (by simp))
  | _ => simp [forest] at heq

theorem known_insert {object item : Slot} (key : String)
    (hn : ∀ slot ∈ (insert object key item).slots, slot.index < slots.length) :
    (insert object key item).Known slots others := by
  intro other hro hno rest tail _ _ heq
  cases other with
  | insert object' key' item' =>
    simp only [forest, List.cons_append, List.nil_append, List.cons.injEq, Tree.group.injEq,
      true_and, and_true] at heq
    obtain ⟨⟨hobject, hkey, hitem⟩, hrest⟩ := heq
    obtain ⟨hobject, hitem⟩ := same_pair hn hno hobject hitem
    rw [Text.tree_inj hkey]
    exact ⟨.insert key' hobject hitem, hrest⟩
  | branch _ _ _ => exact absurd heq.symm (branch_forest_ne (by simp))
  | _ => simp [forest] at heq

section

variable (hs : slots.Legible) (ho : others.Legible)

include hs ho

theorem known_assign {target : Slot} {expr : Expr} (hr : (assign target expr).Readable)
    (hn : ∀ slot ∈ (assign target expr).slots, slot.index < slots.length) :
    (assign target expr).Known slots others := by
  intro other hro hno rest tail _ _ heq
  cases other with
  | assign target' expr' =>
    obtain ⟨ht, he⟩ := List.forall_mem_cons.1 hn
    obtain ⟨ht', he'⟩ := List.forall_mem_cons.1 hno
    simp only [forest, List.cons_append, List.append_assoc, List.nil_append, List.cons.injEq,
      true_and] at heq
    obtain ⟨hexpr, hrest⟩ := eq_of_append_mark (semicolon_notMem_forest slots expr)
      (semicolon_notMem_forest others expr') heq.2
    have hsame := SlotNames.same_of_name_eq ht ht' (word_inj heq.1)
    -- One of them is the running result just if the other is, so both are bound to the same forms.
    have hresult : decide (target' = .value) = decide (target = .value) :=
      decide_eq_decide.2 (hsame.eq_value_iff hs ho).symm
    rw [Readable, hresult] at hro
    exact ⟨.assign hsame (Expr.alike_of_forest hs ho hr hro he he' hexpr), hrest⟩
  | branch _ _ _ => exact absurd heq.symm (branch_forest_ne (by simp))
  | _ => simp [forest] at heq

theorem known_of_readable (stmt : Stmt) (hr : stmt.Readable)
    (hn : ∀ slot ∈ stmt.slots, slot.index < slots.length) : stmt.Known slots others := by
  induction stmt with
  | assign target expr => exact known_assign hs ho hr hn
  | branch test yes no ihy ihn =>
    rw [Readable, readableAll_iff, readableAll_iff] at hr
    obtain ⟨ht, hblocks⟩ := List.forall_mem_cons.1 hn
    obtain ⟨hyes, hno⟩ := List.forall_mem_append.1 hblocks
    exact known_branch hr.1 ht
      (fun stmt hm => ihy stmt hm (hr.2.1 stmt hm) fun slot hs => hyes slot (mem_slotsAll hm hs))
      (fun stmt hm => ihn stmt hm (hr.2.2 stmt hm) fun slot hs => hno slot (mem_slotsAll hm hs))
  | forEach item source body ih =>
    rw [Readable, readableAll_iff] at hr
    obtain ⟨hi, hrest⟩ := List.forall_mem_cons.1 hn
    obtain ⟨hsource, hbody⟩ := List.forall_mem_cons.1 hrest
    exact known_forEach hi hsource
      (fun stmt hm => ih stmt hm (hr stmt hm) fun slot hs => hbody slot (mem_slotsAll hm hs))
  | push list item => exact known_push hn
  | extend list items => exact known_extend hn
  | insert object key item => exact known_insert key hn

/-- A block is known by what it is read as. -/
theorem alikeAll_of_forestAll {block other : List Stmt} (hr : ReadableAll block)
    (hn : ∀ slot ∈ slotsAll block, slot.index < slots.length) (hro : ReadableAll other)
    (hno : ∀ slot ∈ slotsAll other, slot.index < others.length)
    (heq : forestAll slots block = forestAll others other) :
    AlikeAll (slots.Same others) (fun _ _ => True) block other :=
  alikeAll_of_known (fun stmt hm => known_of_readable hs ho stmt (readableAll_iff.1 hr stmt hm)
    fun slot hs => hn slot (mem_slotsAll hm hs)) hro hno heq

end

end Stmt

end PathQuery
