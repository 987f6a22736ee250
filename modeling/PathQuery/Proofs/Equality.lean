import Mathlib
import PathQuery.Proofs.Induction
import PathQuery.Proofs.Reordering

/-!
# The laws of equality

Objects agree if they have as many entries as each other and every entry of the first has a partner
in the second. That looks one way only. Where no key stands twice, it is the same both ways, because
as many different keys on one side leave none over on the other:

* `Value.agree_comm`: agreement does not depend on which value comes first;
* `Value.agree_self_iff`: a value agrees with itself, unless it holds something that is not a
  number;
* `Value.agree_mono`: values that agree still do when more integers count as equal to floats;
* `Value.deepEq_laws`: what this says of equality as queries see it, beside that it does not depend
  on the order of entries.
-/

namespace PathQuery

namespace Entries

variable {α : Type} {entries others : Entries α}

/-- Where no key stands twice, every entry is found under its key. -/
theorem lookup_of_mem (hn : (keys entries).Nodup) {key : String} {a : α} (h : (key, a) ∈ entries) :
    entries.lookup key = some a := by
  obtain ⟨before, after, rfl⟩ := List.append_of_mem h
  refine List.lookup_eq_some_iff.2 ⟨before, after, rfl, fun entry he => ?_⟩
  rw [keys, List.map_append, List.map_cons] at hn
  have hne := (List.nodup_append.1 hn).2.2 entry.1 (List.mem_map_of_mem he) key List.mem_cons_self
  exact bne_iff_ne.2 (Ne.symm hne)

/-- Keys that are all found among as many others leave none of those over. -/
theorem keys_subset_of_length_eq (hn : (keys entries).Nodup) (hl : entries.length = others.length)
    (h : keys entries ⊆ keys others) : keys others ⊆ keys entries := by
  have hle : (keys others).length ≤ (keys entries).length := by simp [keys, hl]
  exact ((hn.subperm h).perm_of_length_le hle).symm.subset

end Entries

namespace Value

/-- No key stands twice in an object, at any depth of arrays and objects. -/
inductive Distinct : Value → Prop
  | null : Distinct .null
  | boolean (b : Bool) : Distinct (.boolean b)
  | integer (n : Int) : Distinct (.integer n)
  | float (x : Binary64) : Distinct (.float x)
  | string (s : String) : Distinct (.string s)
  | array {items : List Value} : (∀ item ∈ items, Distinct item) → Distinct (.array items)
  | object {entries : List (String × Value)} : (Entries.keys entries).Nodup →
    (∀ entry ∈ entries, Distinct entry.2) → Distinct (.object entries)
  | expref (origin : Origin) (node : Node) : Distinct (.expref origin node)

/-- A float that is not a number stands somewhere in the value, at any depth of arrays and objects.
-/
inductive HasNaN : Value → Prop
  | float {x : Binary64} : x.isNaN = true → HasNaN (.float x)
  | item {items : List Value} {item : Value} : item ∈ items → HasNaN item → HasNaN (.array items)
  | entry {entries : List (String × Value)} {entry : String × Value} : entry ∈ entries →
    HasNaN entry.2 → HasNaN (.object entries)

variable {mixed : Int → Binary64 → Bool}

/-! ## Agreement both ways -/

theorem agreeItems_comm {items : List Value} (h : ∀ item ∈ items, ∀ other : Value, other.Distinct →
    item.agree mixed other = other.agree mixed item) {others : List Value}
    (ho : ∀ other ∈ others, other.Distinct) :
    agreeItems mixed items others = agreeItems mixed others items := by
  induction items generalizing others with
  | nil => cases others <;> rfl
  | cons item items ih =>
    cases others with
    | nil => rfl
    | cons other others =>
      obtain ⟨hitem, hitems⟩ := List.forall_mem_cons.1 h
      obtain ⟨hother, hothers⟩ := List.forall_mem_cons.1 ho
      rw [agreeItems, agreeItems, hitem other hother, ih hitems hothers]

/-- Every entry of the first object has a partner under its key. -/
theorem agreeEntries_iff {entries others : List (String × Value)} :
    agreeEntries mixed entries others = true ↔
      ∀ entry ∈ entries, ∃ other, others.lookup entry.1 = some other ∧
        entry.2.agree mixed other = true := by
  simp only [agreeEntries_eq_all, List.all_eq_true, Option.any_eq_true]

/-- If every entry of one object has a partner in the other, then the other way round too. -/
theorem agreeEntries_swap {entries others : List (String × Value)}
    (hn : (Entries.keys entries).Nodup) (hm : (Entries.keys others).Nodup)
    (hl : entries.length = others.length)
    (hc : ∀ entry ∈ entries, ∀ other ∈ others,
      entry.2.agree mixed other.2 = other.2.agree mixed entry.2)
    (h : agreeEntries mixed entries others = true) : agreeEntries mixed others entries = true := by
  rw [agreeEntries_iff] at h ⊢
  have hsub : Entries.keys entries ⊆ Entries.keys others := by
    intro key hk
    obtain ⟨entry, he, rfl⟩ := List.mem_map.1 hk
    obtain ⟨other, hother, -⟩ := h entry he
    obtain ⟨before, after, rfl, -⟩ := List.lookup_eq_some_iff.1 hother
    simp [Entries.keys]
  rintro ⟨key, b⟩ hb
  have hk : key ∈ Entries.keys entries :=
    Entries.keys_subset_of_length_eq hn hl hsub (List.mem_map_of_mem hb)
  obtain ⟨⟨_, a⟩, ha, rfl⟩ := List.mem_map.1 hk
  obtain ⟨partner, hp, hagree⟩ := h _ ha
  -- the partner is `b` itself, since nothing else stands under its key
  rw [Entries.lookup_of_mem hm hb] at hp
  cases hp
  exact ⟨a, Entries.lookup_of_mem hn ha, (hc _ ha _ hb).symm.trans hagree⟩

theorem agreeEntries_comm {entries others : List (String × Value)}
    (hn : (Entries.keys entries).Nodup) (hm : (Entries.keys others).Nodup)
    (hc : ∀ entry ∈ entries, ∀ other ∈ others,
      entry.2.agree mixed other.2 = other.2.agree mixed entry.2) :
    (entries.length == others.length && agreeEntries mixed entries others) =
      (others.length == entries.length && agreeEntries mixed others entries) := by
  by_cases hl : entries.length = others.length
  · have hcomm : agreeEntries mixed entries others = agreeEntries mixed others entries :=
      Bool.eq_iff_iff.2 ⟨agreeEntries_swap hn hm hl hc,
        agreeEntries_swap hm hn hl.symm fun other ho entry he => (hc entry he other ho).symm⟩
    rw [hcomm, hl]
  · rw [beq_eq_false_iff_ne.2 hl, beq_eq_false_iff_ne.2 (Ne.symm hl), Bool.false_and,
      Bool.false_and]

/-- Agreement does not depend on which value comes first. -/
theorem agree_comm {a b : Value} (ha : a.Distinct) (hb : b.Distinct) :
    a.agree mixed b = b.agree mixed a := by
  induction a generalizing b with
  | null => cases b <;> rfl
  | boolean x =>
    cases b with
    | boolean y => exact BEq.comm
    | _ => rfl
  | integer n =>
    cases b with
    | integer m => exact BEq.comm
    | _ => rfl
  | float x =>
    cases b with
    | float y => exact Binary64.numEq_comm x y
    | _ => rfl
  | string s =>
    cases b with
    | string t => exact BEq.comm
    | _ => rfl
  | array items ih =>
    cases b with
    | array others =>
      cases ha with
      | array hitems =>
      cases hb with
      | array hothers =>
      rw [agree, agree, agreeItems_comm (fun item hi other ho => ih item hi (hitems item hi) ho)
        hothers]
    | _ => rfl
  | object entries ih =>
    cases b with
    | object others =>
      cases ha with
      | object hn hentries =>
      cases hb with
      | object hm hothers =>
      rw [agree, agree, agreeEntries_comm hn hm fun entry he other ho =>
        ih entry he (hentries entry he) (hothers other ho)]
    | _ => rfl
  | expref origin node =>
    cases b with
    | expref origin' node' => exact BEq.comm
    | _ => rfl

/-! ## Agreement with itself -/

theorem agreeItems_self_iff {items : List Value} :
    agreeItems mixed items items = true ↔ ∀ item ∈ items, item.agree mixed item = true := by
  induction items with
  | nil => simp [agreeItems]
  | cons item items ih => rw [agreeItems, Bool.and_eq_true, ih, List.forall_mem_cons]

theorem agreeEntries_self_iff {entries : List (String × Value)}
    (hn : (Entries.keys entries).Nodup) :
    agreeEntries mixed entries entries = true ↔
      ∀ entry ∈ entries, entry.2.agree mixed entry.2 = true := by
  rw [agreeEntries_iff]
  refine forall₂_congr fun entry he => ?_
  rw [Entries.lookup_of_mem hn he]
  simp

theorem hasNaN_float_iff {x : Binary64} : (float x).HasNaN ↔ x.isNaN = true := by
  constructor
  · rintro ⟨h⟩
    exact h
  · exact .float

theorem hasNaN_array_iff {items : List Value} :
    (array items).HasNaN ↔ ∃ item ∈ items, item.HasNaN := by
  constructor
  · intro h
    cases h with
    | item hi h => exact ⟨_, hi, h⟩
  · rintro ⟨item, hi, h⟩
    exact .item hi h

theorem hasNaN_object_iff {entries : List (String × Value)} :
    (object entries).HasNaN ↔ ∃ entry ∈ entries, entry.2.HasNaN := by
  constructor
  · intro h
    cases h with
    | entry he h => exact ⟨_, he, h⟩
  · rintro ⟨entry, he, h⟩
    exact .entry he h

/-- A value agrees with itself just if nothing in it is not a number. -/
theorem agree_self_iff {a : Value} (ha : a.Distinct) : a.agree mixed a = true ↔ ¬a.HasNaN := by
  induction a with
  | null => exact ⟨fun _ => by rintro ⟨⟩, fun _ => rfl⟩
  | boolean | integer | string | expref =>
    exact ⟨fun _ => by rintro ⟨⟩, fun _ => beq_self_eq_true _⟩
  | float x =>
    rw [agree, Binary64.numEq_self, hasNaN_float_iff, Bool.not_eq_true', Bool.not_eq_true]
  | array items ih =>
    cases ha with
    | array hitems =>
    rw [agree, agreeItems_self_iff, hasNaN_array_iff]
    simp only [not_exists, not_and]
    exact forall₂_congr fun item hi => ih item hi (hitems item hi)
  | object entries ih =>
    cases ha with
    | object hn hentries =>
    rw [agree, beq_self_eq_true, Bool.true_and, agreeEntries_self_iff hn, hasNaN_object_iff]
    simp only [not_exists, not_and]
    exact forall₂_congr fun entry he => ih entry he (hentries entry he)

/-! ## Agreement under two rules for numbers -/

section

variable {wider : Int → Binary64 → Bool}

theorem agreeItems_mono {items others : List Value}
    (h : ∀ item ∈ items, ∀ other, item.agree mixed other = true → item.agree wider other = true)
    (ha : agreeItems mixed items others = true) : agreeItems wider items others = true := by
  induction items generalizing others with
  | nil => cases others <;> exact ha
  | cons item items ih =>
    cases others with
    | nil => exact ha
    | cons other others =>
      obtain ⟨hitem, hitems⟩ := List.forall_mem_cons.1 h
      rw [agreeItems, Bool.and_eq_true] at ha ⊢
      exact ⟨hitem other ha.1, ih hitems ha.2⟩

/-- Values that agree still do when more integers count as equal to floats. -/
theorem agree_mono (hw : ∀ n x, mixed n x = true → wider n x = true) {a b : Value}
    (h : a.agree mixed b = true) : a.agree wider b = true := by
  induction a generalizing b with
  | null | boolean | string | expref => cases b <;> exact h
  | integer n =>
    cases b with
    | float x => exact hw n x h
    | _ => exact h
  | float x =>
    cases b with
    | integer n => exact hw n x h
    | _ => exact h
  | array items ih =>
    cases b with
    | array others => exact agreeItems_mono (fun item hi other => ih item hi) h
    | _ => exact h
  | object entries ih =>
    cases b with
    | object others =>
      rw [agree, Bool.and_eq_true, agreeEntries_iff] at h ⊢
      refine ⟨h.1, fun entry he => ?_⟩
      obtain ⟨other, hl, hagree⟩ := h.2 entry he
      exact ⟨other, hl, ih entry he hagree⟩
    | _ => exact h

end

/-! ## Equality as queries see it -/

/-- Equality does not depend on which value comes first; a value equals itself unless it holds
something that is not a number; values that are equal when integers are told from floats are equal;
and moving entries of objects about, in either value and at any depth, makes no difference. -/
theorem deepEq_laws :
    (∀ a b : Value, a.Distinct → b.Distinct → a.deepEq b = b.deepEq a) ∧
    (∀ a : Value, a.Distinct → (a.deepEq a = true ↔ ¬a.HasNaN)) ∧
    (∀ a b : Value, a.strictEq b = true → a.deepEq b = true) ∧
    ∀ a a' b b' : Value, a.Reordered a' → b.Reordered b' → a.deepEq b = a'.deepEq b' := by
  refine ⟨fun a b => agree_comm, fun a => agree_self_iff, fun a b => agree_mono (by simp), ?_⟩
  intro a a' b b' ha hb
  rw [deepEq, deepEq, agree_left ha, agree_right hb]

/-- Two objects with an integer for a float on either side, one of them with its entries the other
way round, and an array with something that is not a number in it. -/
theorem deepEq_laws_mixed :
    let a : Value := .object [("x", .integer 1), ("y", .array [.float ⟨false, 1024, 0⟩])]
    let b : Value := .object [("y", .array [.integer 2]), ("x", .float ⟨false, 1023, 0⟩)]
    let c : Value := .object [("y", .array [.float ⟨false, 1024, 0⟩]), ("x", .integer 1)]
    let d : Value := .array [.null, .float ⟨false, 2047, 1⟩]
    (a.Distinct ∧ b.Distinct ∧ a.deepEq b = true ∧ b.deepEq a = true) ∧
      (d.Distinct ∧ d.HasNaN ∧ ¬d.deepEq d = true) ∧ (a.strictEq c = true ∧ a.deepEq c = true) ∧
      (a.Reordered c ∧ c.deepEq b = true) := by
  intro a b c d
  obtain ⟨hcomm, hself, hstrict, hreorder⟩ := deepEq_laws
  have ha : a.Distinct :=
    .object (by decide) (by simp [Distinct.integer, Distinct.float, Distinct.array])
  have hb : b.Distinct :=
    .object (by decide) (by simp [Distinct.integer, Distinct.float, Distinct.array])
  have hd : d.Distinct := .array (by simp [Distinct.null, Distinct.float])
  have hnan : d.HasNaN := .item (List.mem_cons_of_mem _ List.mem_cons_self) (.float rfl)
  have hab : a.deepEq b = true := by decide +kernel
  have hac : a.strictEq c = true := by cbv
  have hperm : a.Reordered c := .entries (by decide) (.swap _ _ _)
  refine ⟨⟨ha, hb, hab, ?_⟩, ⟨hd, hnan, ?_⟩, ⟨hac, hstrict a c hac⟩, ⟨hperm, ?_⟩⟩
  · rw [← hcomm a b ha hb, hab]
  · exact fun h => (hself d hd).1 h hnan
  · rw [← hreorder a c b b hperm (.refl b), hab]

end Value

end PathQuery
