import Mathlib
import PathQuery.Code.Exec
import PathQuery.Query.Eval

/-!
# Values up to the order of their entries

* `Value.Reordered`: one value comes from the other by moving entries of objects about, at any
  depth;
* `Value.Reordered.corresponds`: what such values have in common at the top. Arrays correspond item
  by item, objects key by key, and all else is the same. What a query reads of a value follows from
  this, case by case: its truth, a member, an item;
* `Value.agree_left`, `Value.agree_right`: no comparison tells them apart;
* `Value.Reordered.array`, `Value.Reordered.ofPairs`: arrays and objects that are built alike from
  such values are such values.
-/

namespace PathQuery

namespace Entries

variable {α : Type} {entries others : Entries α}

/-- Where no key stands twice, a key is found wherever it stands. -/
theorem lookup_eq_of_perm (hn : (keys entries).Nodup) (h : entries.Perm others) (key : String) :
    entries.lookup key = others.lookup key := by
  induction h with
  | nil => rfl
  | cons entry _ ih =>
    obtain ⟨k, a⟩ := entry
    rw [List.lookup_cons, List.lookup_cons, ih (List.nodup_cons.1 hn).2]
  | swap x y rest =>
    obtain ⟨k, a⟩ := x
    obtain ⟨l, b⟩ := y
    have hne : l ≠ k := fun he => (List.nodup_cons.1 hn).1 (by simp [he])
    simp only [List.lookup_cons]
    by_cases hl : key = l
    · rw [hl, beq_self_eq_true, beq_eq_false_iff_ne.2 hne]
    · rw [beq_eq_false_iff_ne.2 hl]
  | trans h₁ _ ih₁ ih₂ => rw [ih₁ hn, ih₂ ((h₁.map Prod.fst).nodup_iff.1 hn)]

end Entries

namespace Value

/-- The values are equal up to the order of the entries of objects, at any depth: one comes from the
other in steps, each of which reorders the entries of one object. The keys of that object are
distinct, as those of all objects that can be read or made. -/
inductive Reordered : Value → Value → Prop
  | refl (value : Value) : Reordered value value
  | trans {a b c : Value} : Reordered a b → Reordered b c → Reordered a c
  | entries {entries others : List (String × Value)} : (Entries.keys entries).Nodup →
    entries.Perm others → Reordered (.object entries) (.object others)
  | item {before after : List Value} {a b : Value} : Reordered a b →
    Reordered (.array (before ++ a :: after)) (.array (before ++ b :: after))
  | entry {before after : List (String × Value)} {key : String} {a b : Value} : Reordered a b →
    Reordered (.object (before ++ (key, a) :: after)) (.object (before ++ (key, b) :: after))

/-! ## What reordered values have in common -/

/-- Two arrays with reordered items, two objects with reordered members under each key, or the same
value twice. -/
inductive Corresponds : Value → Value → Prop
  | same (value : Value) : Corresponds value value
  | array {items others : List Value} : List.Forall₂ Reordered items others →
    Corresponds (.array items) (.array others)
  | object {entries others : List (String × Value)} : entries.length = others.length →
    (∀ key, Reordered (field key (.object entries)) (field key (.object others))) →
    Corresponds (.object entries) (.object others)

theorem forall₂_refl (items : List Value) : List.Forall₂ Reordered items items :=
  List.forall₂_same.2 fun value _ => .refl value

theorem forall₂_trans {as bs cs : List Value} (hab : List.Forall₂ Reordered as bs)
    (hbc : List.Forall₂ Reordered bs cs) : List.Forall₂ Reordered as cs := by
  induction hab generalizing cs with
  | nil => exact hbc
  | cons hx _ ih =>
    cases hbc with
    | cons hy hbc => exact .cons (hx.trans hy) (ih hbc)

theorem Corresponds.trans {a b c : Value} (hab : Corresponds a b) (hbc : Corresponds b c) :
    Corresponds a c := by
  cases hab with
  | same => exact hbc
  | array h =>
    cases hbc with
    | same => exact .array h
    | array h' => exact .array (forall₂_trans h h')
  | object hl h =>
    cases hbc with
    | same => exact .object hl h
    | object hl' h' => exact .object (hl.trans hl') fun key => (h key).trans (h' key)

theorem Reordered.corresponds {a b : Value} (h : Reordered a b) : Corresponds a b := by
  induction h with
  | refl value => exact .same value
  | trans _ _ ih₁ ih₂ => exact ih₁.trans ih₂
  | entries hn hp =>
    refine .object hp.length_eq fun key => ?_
    rw [field, field, Entries.lookup_eq_of_perm hn hp]
    exact .refl _
  | @item before after a b h _ =>
    refine .array ?_
    induction before with
    | nil => exact .cons h (forall₂_refl after)
    | cons value before ih => exact .cons (.refl value) ih
  | @entry before after key a b h _ =>
    refine .object (by simp) fun k => ?_
    rw [field, field, List.lookup_append, List.lookup_append, List.lookup_cons, List.lookup_cons]
    cases before.lookup k with
    | some value => exact .refl _
    | none =>
      cases k == key with
      | true => exact h
      | false => exact .refl _

namespace Reordered

variable {a b : Value}

theorem isNull_eq (h : Reordered a b) : a.isNull = b.isNull := by
  cases h.corresponds with
  | same | array | object => rfl

theorem truthy_eq (h : Reordered a b) : a.truthy = b.truthy := by
  cases h.corresponds with
  | same => rfl
  | array hi => cases hi <;> rfl
  | @object entries others hl _ =>
    have he : entries.isEmpty = others.isEmpty := by
      rw [Bool.eq_iff_iff, List.isEmpty_iff_length_eq_zero, List.isEmpty_iff_length_eq_zero, hl]
    exact congrArg not he

theorem field_at (h : Reordered a b) (key : String) : Reordered (a.field key) (b.field key) := by
  cases h.corresponds with
  | same | array => exact .refl _
  | object _ hf => exact hf key

theorem item_at (h : Reordered a b) (i : Int) : Reordered (a.item i) (b.item i) := by
  have hget (items others : List Value) (hi : List.Forall₂ Reordered items others) (n : Nat) :
      Reordered (items.getD n .null) (others.getD n .null) := by
    induction hi generalizing n with
    | nil => exact .refl _
    | cons hx _ ih =>
      cases n with
      | zero => exact hx
      | succ n => exact ih n
  cases h.corresponds with
  | same | object => exact .refl _
  | array hi =>
    simp only [Value.item, hi.length_eq]
    generalize (if i < 0 then _ else i) = place
    by_cases hp : 0 ≤ place
    · rw [if_pos hp, if_pos hp]
      exact hget _ _ hi _
    · rw [if_neg hp, if_neg hp]
      exact .refl _

theorem opened (h : Reordered a b) : List.Forall₂ Reordered a.opened b.opened := by
  cases h.corresponds with
  | same => exact forall₂_refl _
  | array hi => exact hi
  | object => exact .cons h .nil

theorem projected (h : Reordered a b) :
    Option.Rel (List.Forall₂ Reordered) (a.projected? .array) (b.projected? .array) := by
  cases h.corresponds with
  | same =>
    cases a.projected? .array with
    | none => exact .none
    | some items => exact .some (forall₂_refl items)
  | array hi => exact .some hi
  | object => exact .none

/-! ## Building values -/

theorem array {items others : List Value} (h : List.Forall₂ Reordered items others) :
    Reordered (.array items) (.array others) := by
  suffices hp : ∀ before, Reordered (.array (before ++ items)) (.array (before ++ others)) from
    hp []
  induction h with
  | nil => exact fun before => .refl _
  | @cons x y items others hx _ ih =>
    -- one item is exchanged, then it counts as one of those before the rest
    intro before
    have hy := ih (before ++ [y])
    rw [List.append_assoc, List.append_assoc] at hy
    exact (Reordered.item hx).trans hy

theorem flatten (h : Reordered a b) : Reordered a.flatten b.flatten := by
  cases h.corresponds with
  | same | object => exact .refl _
  | array hi => exact array (List.rel_flatMap hi fun _ _ => opened)

theorem filter {items others : List Value} (h : List.Forall₂ Reordered items others) :
    List.Forall₂ Reordered (items.filter fun v => !v.isNull) (others.filter fun v => !v.isNull) :=
  List.rel_filter (fun _ _ hv => by simp only [hv.isNull_eq]) h

/-- The entries have one key, and reordered values under it. -/
def Entry (entry other : String × Value) : Prop := entry.1 = other.1 ∧ Reordered entry.2 other.2

theorem object {entries others : List (String × Value)} (h : List.Forall₂ Entry entries others) :
    Reordered (.object entries) (.object others) := by
  suffices hp : ∀ before, Reordered (.object (before ++ entries)) (.object (before ++ others)) from
    hp []
  induction h with
  | nil => exact fun before => .refl _
  | @cons x y entries others hx _ ih =>
    intro before
    obtain ⟨key, x⟩ := x
    obtain ⟨_, y⟩ := y
    obtain ⟨rfl, hx⟩ := hx
    have hy := ih (before ++ [(key, y)])
    rw [List.append_assoc, List.append_assoc] at hy
    exact (Reordered.entry hx).trans hy

theorem insert {entries others : List (String × Value)} (h : List.Forall₂ Entry entries others)
    (key : String) (hab : Reordered a b) :
    List.Forall₂ Entry (Entries.insert key a entries) (Entries.insert key b others) := by
  induction h with
  | nil => exact .cons ⟨rfl, hab⟩ .nil
  | @cons x y entries others hx h ih =>
    obtain ⟨k, x⟩ := x
    obtain ⟨_, y⟩ := y
    obtain ⟨rfl, hx⟩ := hx
    rw [Entries.insert, Entries.insert]
    split
    · exact .cons ⟨rfl, hab⟩ h
    · exact .cons ⟨rfl, hx⟩ ih

theorem ofPairs {pairs others : List (String × Value)} (h : List.Forall₂ Entry pairs others) :
    Reordered (.object (Entries.ofPairs pairs)) (.object (Entries.ofPairs others)) := by
  refine object (List.rel_foldl ?_ .nil h)
  rintro entries entries' he ⟨key, x⟩ ⟨_, y⟩ ⟨rfl, hx⟩
  exact insert he key hx

end Reordered

/-! ## Comparing reordered values -/

variable (mixed : Int → Binary64 → Bool)

theorem agreeEntries_eq_all (entries others : List (String × Value)) :
    agreeEntries mixed entries others =
      entries.all fun entry => (others.lookup entry.1).any (entry.2.agree mixed) := by
  induction entries with
  | nil => rw [agreeEntries, List.all_nil]
  | cons entry entries ih =>
    obtain ⟨key, a⟩ := entry
    rw [agreeEntries, ih, List.all_cons]
    cases others.lookup key with
    | none => rfl
    | some b => rfl

variable {mixed}

theorem agreeItems_left {a b : Value} (h : ∀ c, a.agree mixed c = b.agree mixed c)
    (before after others : List Value) :
    agreeItems mixed (before ++ a :: after) others =
      agreeItems mixed (before ++ b :: after) others := by
  induction before generalizing others with
  | nil =>
    cases others with
    | nil => rfl
    | cons c others => rw [List.nil_append, List.nil_append, agreeItems, agreeItems, h]
  | cons value before ih =>
    cases others with
    | nil => rfl
    | cons c others => rw [List.cons_append, List.cons_append, agreeItems, agreeItems, ih]

theorem agreeItems_right {a b : Value} (h : ∀ c : Value, c.agree mixed a = c.agree mixed b)
    (before after others : List Value) :
    agreeItems mixed others (before ++ a :: after) =
      agreeItems mixed others (before ++ b :: after) := by
  induction before generalizing others with
  | nil =>
    cases others with
    | nil => rfl
    | cons c others => rw [List.nil_append, List.nil_append, agreeItems, agreeItems, h]
  | cons value before ih =>
    cases others with
    | nil => rfl
    | cons c others => rw [List.cons_append, List.cons_append, agreeItems, agreeItems, ih]

/-- What agrees with a value is not changed by reordering it: every entry is looked for, in whatever
order. -/
theorem agree_left {a b : Value} (h : Reordered a b) (c : Value) :
    a.agree mixed c = b.agree mixed c := by
  induction h generalizing c with
  | refl => rfl
  | trans _ _ ih₁ ih₂ => rw [ih₁, ih₂]
  | entries _ hp =>
    cases c with
    | object others =>
      rw [agree, agree, agreeEntries_eq_all, agreeEntries_eq_all, hp.length_eq, hp.all_eq]
    | _ => rfl
  | item _ ih =>
    cases c with
    | array others => rw [agree, agree, agreeItems_left ih]
    | _ => rfl
  | entry _ ih =>
    cases c with
    | object others =>
      simp only [agree, agreeEntries_eq_all, List.length_append, List.length_cons, List.all_append,
        List.all_cons, funext ih]
    | _ => rfl

/-- The same for the second of the two values: what stands under a key is found in whatever order,
since the keys are distinct. -/
theorem agree_right {a b : Value} (h : Reordered a b) (c : Value) :
    c.agree mixed a = c.agree mixed b := by
  induction h generalizing c with
  | refl => rfl
  | trans _ _ ih₁ ih₂ => rw [ih₁, ih₂]
  | entries hn hp =>
    cases c with
    | object others =>
      simp only [agree, agreeEntries_eq_all, hp.length_eq, Entries.lookup_eq_of_perm hn hp]
    | _ => rfl
  | item _ ih =>
    cases c with
    | array others => rw [agree, agree, agreeItems_right ih]
    | _ => rfl
  | @entry before after key a b _ ih =>
    cases c with
    | object others =>
      have hfind (entry : String × Value) :
          ((before ++ (key, a) :: after).lookup entry.1).any (entry.2.agree mixed) =
            ((before ++ (key, b) :: after).lookup entry.1).any (entry.2.agree mixed) := by
        simp only [List.lookup_append, List.lookup_cons]
        cases before.lookup entry.1 with
        | some value => rfl
        | none =>
          cases entry.1 == key with
          | true => exact ih entry.2
          | false => rfl
      simp only [agree, agreeEntries_eq_all, List.length_append, List.length_cons, hfind]
    | _ => rfl

theorem Reordered.compare_eq {a b c d : Value} (hab : Reordered a b) (hcd : Reordered c d)
    (op : Comparator) : op.compare a c = op.compare b d := by
  have heq : a.deepEq c = b.deepEq d := by rw [deepEq, deepEq, agree_left hab, agree_right hcd]
  cases op with
  | equal => exact heq
  | notEqual => exact congrArg not heq
  | less | lessEqual | greater | greaterEqual =>
    -- reordering leaves integers alone, and all else has no order
    cases hab.corresponds with
    | same =>
      cases hcd.corresponds with
      | same => rfl
      | array | object => cases a <;> rfl
    | array | object => rfl

end Value

end PathQuery
