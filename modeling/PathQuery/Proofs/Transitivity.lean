import Mathlib
import PathQuery.Proofs.Conversion
import PathQuery.Proofs.Equality

/-!
# Where equality is transitive

An integer is compared with a float by way of the double nearest to it, but with another integer as
it is. From 54 digits on several integers share one double, which is equal to all of them. So
equality is not transitive (`Value.deepEq_not_transitive`), and this is all that can go wrong:

* `Value.Blurred`: at one place of two values stand different integers with the same double;
* `Value.deepEq_trans`: otherwise, what is equal to the same value is equal;
* `Value.deepEq_trans_iff`: both together, and how equality of numbers relates to their values.
-/

namespace PathQuery

namespace Binary64

variable {x y z : Binary64}

theorem numEq_trans (hxy : x.numEq y = true) (hyz : y.numEq z = true) : x.numEq z = true := by
  simp only [numEq, Bool.and_eq_true, Bool.or_eq_true, beq_iff_eq] at hxy hyz ⊢
  obtain ⟨⟨hx, -⟩, rfl | ⟨hzx, hzy⟩⟩ := hxy
  · exact hyz
  · obtain ⟨⟨-, hz⟩, rfl | ⟨-, hzz⟩⟩ := hyz
    · exact ⟨⟨hx, hz⟩, .inr ⟨hzx, hzy⟩⟩
    · exact ⟨⟨hx, hz⟩, .inr ⟨hzx, hzz⟩⟩

/-- Of the two zeros one is as near as the other. -/
theorem IsNearest.of_numEq {q : ℚ} (h : IsNearest q x) (hxy : x.numEq y = true) :
    IsNearest q y := by
  simp only [numEq, Bool.and_eq_true, Bool.or_eq_true, beq_iff_eq] at hxy
  obtain ⟨-, rfl | ⟨hx, hy⟩⟩ := hxy
  · exact h
  · have hrat : y.toRat = x.toRat := by rw [toRat_eq_zero_iff.2 hx, toRat_eq_zero_iff.2 hy]
    simp only [isZero, Bool.and_eq_true, beq_iff_eq] at hy
    refine ⟨by simp [Binary64.isFinite, hy], fun z hz => hrat ▸ h.le z hz, fun _ _ _ _ => ?_⟩
    simp [mantissa, hy]

end Binary64

namespace Value

open Binary64 (ofInt)

/-- At the same place of two values stand integers that differ, but not once they are rounded to
doubles. -/
inductive Blurred : Value → Value → Prop
  | integer {n m : Int} : n ≠ m → (ofInt n).numEq (ofInt m) = true →
    Blurred (.integer n) (.integer m)
  | item {items others : List Value} {i : Nat} {a b : Value} : items[i]? = some a →
    others[i]? = some b → Blurred a b → Blurred (.array items) (.array others)
  | entry {entries others : List (String × Value)} {key : String} {a b : Value} :
    (key, a) ∈ entries → others.lookup key = some b → Blurred a b →
    Blurred (.object entries) (.object others)

/-- The number that a value is, if it is a finite one. -/
def number? : Value → Option ℚ
  | .integer n => some n
  | .float x => if x.isFinite then some x.toRat else none
  | _ => none

/-! ## Equality of arrays and objects -/

/-- Arrays are equal if they are as long as each other and equal at every index. -/
theorem deepEq_array_iff {items others : List Value} :
    (array items).deepEq (array others) = true ↔ items.length = others.length ∧
      ∀ (i : Nat) (a b : Value), items[i]? = some a → others[i]? = some b →
        a.deepEq b = true := by
  rw [deepEq, agree]
  induction items generalizing others with
  | nil => cases others <;> simp [agreeItems]
  | cons item items ih =>
    cases others with
    | nil => simp [agreeItems]
    | cons other others =>
      rw [agreeItems, Bool.and_eq_true, ih, List.length_cons, List.length_cons,
        Nat.add_right_cancel_iff]
      constructor
      · rintro ⟨hfirst, hlength, hrest⟩
        refine ⟨hlength, fun i a b ha hb => ?_⟩
        cases i with
        | zero =>
          cases ha
          cases hb
          exact hfirst
        | succ i => exact hrest i a b ha hb
      · rintro ⟨hlength, h⟩
        exact ⟨h 0 item other rfl rfl, hlength, fun i => h (i + 1)⟩

/-- Objects are equal if they have as many entries as each other and every entry of the first has
its equal in the second. -/
theorem deepEq_object_iff {entries others : List (String × Value)} :
    (object entries).deepEq (object others) = true ↔ entries.length = others.length ∧
      ∀ key a, (key, a) ∈ entries → ∃ b, others.lookup key = some b ∧ a.deepEq b = true := by
  rw [deepEq, agree, Bool.and_eq_true, beq_iff_eq, agreeEntries_iff, Prod.forall]
  rfl

/-! ## Blurred integers -/

/-- Values with different integers at one place are not equal. -/
theorem Blurred.not_deepEq {a b : Value} (h : a.Blurred b) : ¬a.deepEq b = true := by
  induction h with
  | integer hne _ => exact fun h => hne (eq_of_beq h)
  | item ha hb _ ih => exact fun h => ih ((deepEq_array_iff.1 h).2 _ _ _ ha hb)
  | entry ha hb _ ih =>
    intro h
    obtain ⟨other, hother, heq⟩ := (deepEq_object_iff.1 h).2 _ _ ha
    cases hb.symm.trans hother
    exact ih heq

theorem Blurred.exists_integers {a b : Value} (h : a.Blurred b) :
    ∃ n m, a.HasInteger n ∧ b.HasInteger m ∧ n ≠ m ∧ (ofInt n).numEq (ofInt m) = true := by
  induction h with
  | integer hne heq => exact ⟨_, _, .integer, .integer, hne, heq⟩
  | item ha hb _ ih =>
    obtain ⟨n, m, hn, hm, h⟩ := ih
    exact ⟨n, m, .item (List.mem_of_getElem? ha) hn, .item (List.mem_of_getElem? hb) hm, h⟩
  | entry ha hb _ ih =>
    obtain ⟨n, m, hn, hm, h⟩ := ih
    exact ⟨n, m, .entry ha hn, .entry (mem_of_lookup_eq_some hb) hm, h⟩

/-- Integers of up to 53 digits have doubles of their own. -/
theorem not_blurred {a b : Value} (ha : a.Integers (·.natAbs ≤ 2 ^ 53))
    (hb : b.Integers (·.natAbs ≤ 2 ^ 53)) : ¬a.Blurred b := by
  intro h
  obtain ⟨n, m, hn, hm, hne, heq⟩ := h.exists_integers
  have hfinite {k : Int} (hk : k.natAbs ≤ 2 ^ 53) : (ofInt k).isFinite = true :=
    Binary64.isFinite_ofInt (by omega)
  rw [Binary64.numEq_iff_toRat_eq (hfinite (ha n hn)) (hfinite (hb m hm)),
    Binary64.toRat_ofInt (ha n hn), Binary64.toRat_ofInt (hb m hm)] at heq
  exact hne (by exact_mod_cast heq)

/-! ## Numbers -/

section

variable {n m : Int} {x : Binary64}

theorem deepEq_integer_iff : (integer n).deepEq (integer m) = true ↔ n = m := beq_iff_eq

theorem deepEq_integer_float : (integer n).deepEq (float x) = (ofInt n).numEq x := rfl

theorem deepEq_float_integer : (float x).deepEq (integer n) = (ofInt n).numEq x := rfl

end

/-- The only way for numbers to be equal to the same number, but not to one another, is that they
are integers that are blurred. -/
theorem deepEq_trans_integer {n : Int} {b c : Value} (hab : (integer n).deepEq b = true)
    (hbc : b.deepEq c = true) (h : ¬(integer n).Blurred c) : (integer n).deepEq c = true := by
  cases b with
  | integer m => rwa [deepEq_integer_iff.1 hab]
  | float x =>
    rw [deepEq_integer_float] at hab
    cases c with
    | integer m =>
      rw [deepEq_float_integer, Binary64.numEq_comm] at hbc
      rw [deepEq_integer_iff]
      by_contra hne
      exact h (.integer hne (Binary64.numEq_trans hab hbc))
    | float y => exact Binary64.numEq_trans hab hbc
    | _ => cases hbc
  | _ => cases hab

theorem deepEq_trans_float {x : Binary64} {b c : Value} (hab : (float x).deepEq b = true)
    (hbc : b.deepEq c = true) : (float x).deepEq c = true := by
  cases b with
  | integer m =>
    rw [deepEq_float_integer] at hab
    cases c with
    | integer k => rwa [deepEq_float_integer, ← deepEq_integer_iff.1 hbc]
    | float y => exact Binary64.numEq_trans ((Binary64.numEq_comm ..).trans hab) hbc
    | _ => cases hbc
  | float y =>
    cases c with
    | integer k =>
      rw [deepEq_float_integer] at hbc ⊢
      exact Binary64.numEq_trans hbc ((Binary64.numEq_comm ..).trans hab)
    | float z => exact Binary64.numEq_trans hab hbc
    | _ => cases hbc
  | _ => cases hab

/-- What is equal to the same value is equal, if no integers are blurred. -/
theorem deepEq_trans {a b c : Value} (hab : a.deepEq b = true) (hbc : b.deepEq c = true)
    (h : ¬a.Blurred c) : a.deepEq c = true := by
  induction a generalizing b c with
  | null =>
    cases b with
    | null => exact hbc
    | _ => cases hab
  | boolean p =>
    cases b with
    | boolean q => rwa [show p = q from eq_of_beq hab]
    | _ => cases hab
  | string s =>
    cases b with
    | string t => rwa [show s = t from eq_of_beq hab]
    | _ => cases hab
  | expref origin node =>
    cases b with
    | expref origin' node' =>
      cases c with
      | expref origin'' node'' => exact beq_iff_eq.2 ((eq_of_beq hab).trans (eq_of_beq hbc))
      | _ => cases hbc
    | _ => cases hab
  | integer n => exact deepEq_trans_integer hab hbc h
  | float x => exact deepEq_trans_float hab hbc
  | array items ih =>
    cases b with
    | array others =>
      cases c with
      | array lasts =>
        rw [deepEq_array_iff] at hab hbc ⊢
        refine ⟨hab.1.trans hbc.1, fun i a c ha hc => ?_⟩
        obtain ⟨b, hb⟩ : ∃ b, others[i]? = some b := by
          have hi : i < others.length := hab.1 ▸ (List.getElem?_eq_some_iff.1 ha).1
          exact ⟨others[i], List.getElem?_eq_getElem hi⟩
        exact ih a (List.mem_of_getElem? ha) (hab.2 i a b ha hb) (hbc.2 i b c hb hc)
          fun hblur => h (.item ha hc hblur)
      | _ => cases hbc
    | _ => cases hab
  | object entries ih =>
    cases b with
    | object others =>
      cases c with
      | object lasts =>
        rw [deepEq_object_iff] at hab hbc ⊢
        refine ⟨hab.1.trans hbc.1, fun key a ha => ?_⟩
        obtain ⟨b, hb, heq⟩ := hab.2 key a ha
        obtain ⟨c, hc, heq'⟩ := hbc.2 key b (mem_of_lookup_eq_some hb)
        exact ⟨c, hc, ih (key, a) ha heq heq' fun hblur => h (.entry ha hc hblur)⟩
      | _ => cases hbc
    | _ => cases hab

/-! ## Numbers and their values -/

theorem isNearest_ofInt_of_fits {n : Int} (h : fits n = true) : (ofInt n).IsNearest n := by
  rw [fits_iff] at h
  exact Binary64.isNearest_ofInt (by omega)

/-- A float that has the value of an integer is equal to it. -/
theorem deepEq_of_toRat_eq {n : Int} {x : Binary64} (hn : fits n = true) (hx : x.isFinite = true)
    (h : x.toRat = n) : (integer n).deepEq (float x) = true := by
  have hnearest := isNearest_ofInt_of_fits hn
  have hdist := hnearest.le x hx
  rw [h, sub_self, abs_zero, abs_nonpos_iff, sub_eq_zero] at hdist
  rw [deepEq_integer_float, Binary64.numEq_iff_toRat_eq hnearest.isFinite hx, hdist, h]

/-- A float that is equal to an integer is the nearest there is. -/
theorem isNearest_of_deepEq {n : Int} {x : Binary64} (hn : fits n = true)
    (h : (integer n).deepEq (float x) = true) : x.IsNearest n :=
  (isNearest_ofInt_of_fits hn).of_numEq h

theorem number?_eq_some {a : Value} {q : ℚ} (h : a.number? = some q) :
    (∃ n : Int, a = .integer n ∧ q = n) ∨
      ∃ x : Binary64, a = .float x ∧ x.isFinite = true ∧ q = x.toRat := by
  cases a with
  | integer n => exact .inl ⟨n, rfl, (Option.some.inj h).symm⟩
  | float x =>
    rw [number?] at h
    split at h
    · next hx => exact .inr ⟨x, rfl, hx, (Option.some.inj h).symm⟩
    · cases h
  | _ => cases h

/-- Numbers of the same value are equal. -/
theorem deepEq_of_number? {a b : Value} {q : ℚ} (ha : a.Integers fun n => fits n)
    (hb : b.Integers fun n => fits n) (hq : a.number? = some q) (hr : b.number? = some q) :
    a.deepEq b = true := by
  obtain ⟨n, rfl, rfl⟩ | ⟨x, rfl, hx, rfl⟩ := number?_eq_some hq
  · obtain ⟨m, rfl, h⟩ | ⟨y, rfl, hy, h⟩ := number?_eq_some hr
    · exact deepEq_integer_iff.2 (by exact_mod_cast h)
    · exact deepEq_of_toRat_eq (ha n .integer) hy h.symm
  · obtain ⟨m, rfl, h⟩ | ⟨y, rfl, hy, h⟩ := number?_eq_some hr
    · exact deepEq_of_toRat_eq (hb m .integer) hx h
    · exact (Binary64.numEq_iff_toRat_eq hx hy).2 h

/-- A float is equal to an integer of up to 53 digits only if it has its value. -/
theorem toRat_eq_of_deepEq {n : Int} {x : Binary64} (hn : n.natAbs ≤ 2 ^ 53)
    (hx : x.isFinite = true) (h : (integer n).deepEq (float x) = true) : (n : ℚ) = x.toRat := by
  have hfinite : (ofInt n).isFinite = true := Binary64.isFinite_ofInt (by omega)
  rw [← Binary64.toRat_ofInt hn]
  exact (Binary64.numEq_iff_toRat_eq hfinite hx).1 h

/-- Numbers that are equal have the same value, if their integers have up to 53 digits. -/
theorem number?_eq_of_deepEq {a b : Value} {q r : ℚ} (ha : a.Integers (·.natAbs ≤ 2 ^ 53))
    (hb : b.Integers (·.natAbs ≤ 2 ^ 53)) (hq : a.number? = some q) (hr : b.number? = some r)
    (h : a.deepEq b = true) : q = r := by
  obtain ⟨n, rfl, rfl⟩ | ⟨x, rfl, hx, rfl⟩ := number?_eq_some hq
  · obtain ⟨m, rfl, rfl⟩ | ⟨y, rfl, hy, rfl⟩ := number?_eq_some hr
    · rw [deepEq_integer_iff.1 h]
    · exact toRat_eq_of_deepEq (ha n .integer) hy h
  · obtain ⟨m, rfl, rfl⟩ | ⟨y, rfl, hy, rfl⟩ := number?_eq_some hr
    · exact (toRat_eq_of_deepEq (hb m .integer) hx h).symm
    · exact (Binary64.numEq_iff_toRat_eq hx hy).1 h

theorem fits_of_natAbs_le {n : Int} (h : n.natAbs ≤ 2 ^ 53) : fits n = true := by
  rw [fits_iff]
  omega

/-- Equality fails to be transitive just where integers are blurred, which takes integers of more
than 53 digits. Numbers of the same value are equal. Up to 53 digits no others are; beyond, a float
that is equal to an integer is the double nearest to it. -/
theorem deepEq_trans_iff (a b c : Value) :
    (a.deepEq b = true → b.deepEq c = true → (a.deepEq c = true ↔ ¬a.Blurred c)) ∧
    (a.Integers (·.natAbs ≤ 2 ^ 53) → c.Integers (·.natAbs ≤ 2 ^ 53) →
      a.deepEq b = true → b.deepEq c = true → a.deepEq c = true) ∧
    (∀ q r : ℚ, a.Integers (·.natAbs ≤ 2 ^ 53) → b.Integers (·.natAbs ≤ 2 ^ 53) →
      a.number? = some q → b.number? = some r → (a.deepEq b = true ↔ q = r)) ∧
    (∀ q : ℚ, a.Integers (fun n => fits n) → b.Integers (fun n => fits n) →
      a.number? = some q → b.number? = some q → a.deepEq b = true) ∧
    ∀ (n : Int) (x : Binary64), fits n = true → (integer n).deepEq (float x) = true →
      x.IsNearest n := by
  refine ⟨?_, ?_, ?_, fun q => deepEq_of_number?, fun n x => isNearest_of_deepEq⟩
  · intro hab hbc
    exact ⟨fun h hblur => hblur.not_deepEq h, deepEq_trans hab hbc⟩
  · intro ha hc hab hbc
    exact deepEq_trans hab hbc (not_blurred ha hc)
  · intro q r ha hb hq hr
    refine ⟨number?_eq_of_deepEq ha hb hq hr, ?_⟩
    rintro rfl
    exact deepEq_of_number? (fun n hn => fits_of_natAbs_le (ha n hn))
      (fun n hn => fits_of_natAbs_le (hb n hn)) hq hr

theorem number?_float {x : Binary64} {m : Nat} {s : Int} (hx : x.isFinite = true)
    (hn : x.negative = false) (hm : x.mantissa = m) (hs : x.scale = s) :
    (float x).number? = some ((m : ℚ) * 2 ^ s) := by
  rw [number?, if_pos hx, Binary64.toRat, hn, if_neg Bool.false_ne_true, Binary64.size, hm, hs]

theorem number?_float_two_pow :
    (float (Binary64.ofBits 0x4340000000000000)).number? = some (2 ^ 53) := by
  rw [number?_float (m := 0x10000000000000) (s := 1) (by decide +kernel) (by decide +kernel)
    (by decide +kernel) (by decide +kernel)]
  norm_num

/-- Two integers with the same double, deep inside of two values; integers and zeros that are equal
all round; neighbours of 53 digits; and an integer of more digits beside the float of the same
value. -/
theorem deepEq_trans_iff_nested :
    let inside (v : Value) : Value := .object [("k", .array [.null, v])]
    let a := inside (.integer 0x20000000000000)
    let b := inside (.float (Binary64.ofBits 0x4340000000000000))
    let c := inside (.integer 0x20000000000001)
    let d : Value := .array [.integer 7, .float (Binary64.ofBits 0)]
    let e : Value := .array [.float (Binary64.ofBits 0x401c000000000000),
      .float (Binary64.ofBits 0x8000000000000000)]
    let f : Value := .array [.integer 7, .integer 0]
    let g : Value := .integer 0x20000000000002
    let h : Value := .float (Binary64.ofBits 0x4340000000000001)
    let i : Value := .integer 0x1fffffffffffff
    let j : Value := .float (Binary64.ofBits 0x4340000000000000)
    (a.deepEq b = true ∧ b.deepEq c = true ∧ a.Blurred c ∧ ¬a.deepEq c = true) ∧
      (d.deepEq e = true ∧ e.deepEq f = true ∧ d.deepEq f = true) ∧
      (i.number? = some (2 ^ 53 - 1) ∧ j.number? = some (2 ^ 53) ∧ ¬i.deepEq j = true) ∧
      (g.number? = some (2 ^ 53 + 2) ∧ h.number? = some (2 ^ 53 + 2) ∧ g.deepEq h = true) ∧
      (Binary64.ofBits 0x4340000000000000).IsNearest (0x20000000000001 : ℤ) := by
  intro inside a b c d e f g h i j
  obtain ⟨htrans, -, -, -, hnearest⟩ := deepEq_trans_iff a b c
  obtain ⟨-, hshort, -⟩ := deepEq_trans_iff d e f
  obtain ⟨-, -, -, hnumber, -⟩ := deepEq_trans_iff g h g
  obtain ⟨-, -, hexact, -⟩ := deepEq_trans_iff i j i
  have hab : a.deepEq b = true := by decide +kernel
  have hbc : b.deepEq c = true := by decide +kernel
  have hblur : a.Blurred c :=
    .entry List.mem_cons_self rfl
      (.item (i := 1) rfl rfl (.integer (by decide) (by decide +kernel)))
  have hde : d.deepEq e = true := by decide +kernel
  have hef : e.deepEq f = true := by decide +kernel
  have hd : d.Integers (·.natAbs ≤ 2 ^ 53) := by
    simp [d, integers_array_iff, integers_integer_iff, integers_float]
  have hf : f.Integers (·.natAbs ≤ 2 ^ 53) := by
    simp [f, integers_array_iff, integers_integer_iff]
  have hg : g.number? = some (2 ^ 53 + 2) := by norm_num [g, number?]
  have hh : h.number? = some (2 ^ 53 + 2) := by
    rw [number?_float (m := 0x10000000000001) (s := 1) (by decide +kernel) (by decide +kernel)
      (by decide +kernel) (by decide +kernel)]
    norm_num
  have hfits : g.Integers fun n => fits n := integers_integer_iff.2 (by decide)
  have hi : i.number? = some (2 ^ 53 - 1) := by norm_num [i, number?]
  have hj : j.number? = some (2 ^ 53) := number?_float_two_pow
  have hshorter : i.Integers (·.natAbs ≤ 2 ^ 53) := integers_integer_iff.2 (by decide)
  have hne : ¬i.deepEq j = true := by
    rw [hexact _ _ hshorter (integers_float _) hi hj]
    norm_num
  exact ⟨⟨hab, hbc, hblur, fun h => (htrans hab hbc).1 h hblur⟩,
    ⟨hde, hef, hshort hd hf hde hef⟩, ⟨hi, hj, hne⟩,
    ⟨hg, hh, hnumber _ hfits (integers_float _) hg hh⟩,
    hnearest _ _ (by decide) (by decide +kernel)⟩

/-- The integers `2 ^ 53` and `2 ^ 53 + 1` differ, but the double `2 ^ 53` is equal to both. -/
theorem deepEq_not_transitive :
    let a : Value := .integer 0x20000000000000
    let b : Value := .float (Binary64.ofBits 0x4340000000000000)
    let c : Value := .integer 0x20000000000001
    a.deepEq b = true ∧ b.deepEq c = true ∧ a.deepEq c = false ∧
      b.number? = some (2 ^ 53) ∧ c.number? = some (2 ^ 53 + 1) := by
  exact ⟨by decide +kernel, by decide +kernel, by decide +kernel, number?_float_two_pow,
    by norm_num [number?]⟩

end Value

end PathQuery
