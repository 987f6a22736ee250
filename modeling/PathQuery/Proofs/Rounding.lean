import Mathlib
import PathQuery.Proofs.Decimals
import PathQuery.Proofs.Interchange

/-!
# The nearest double

`Binary64.ofRatio` finds the double for a quotient by integer arithmetic. That this is the nearest
one is shown in three steps:

* `Binary64.roundsTo_ofRatio`: the quotient lies in the interval of the double that is found;
* `Binary64.midpoint_le_low`, `Binary64.high_le_midpoint`: the points halfway to all other doubles
  lie outside of that interval, or at its ends;
* `Binary64.isNearest_ofInt`: so no double is nearer, and where another is as near, the one that is
  found has an even mantissa. An integer of up to 53 bits is hit exactly
  (`Binary64.toRat_ofInt`).
-/

namespace PathQuery.Binary64

/-- The absolute value of a finite double. -/
def size (x : Binary64) : ℚ := x.mantissa * 2 ^ x.scale

/-- The number that a finite double stands for. -/
def toRat (x : Binary64) : ℚ := if x.negative then -x.size else x.size

/-- The finite double `x` is nearest to `q`. Of two that are equally near it is the one with an even
mantissa. -/
structure IsNearest (q : ℚ) (x : Binary64) : Prop where
  isFinite : x.isFinite = true
  le : ∀ y : Binary64, y.isFinite = true → |x.toRat - q| ≤ |y.toRat - q|
  even_of_tie : ∀ y : Binary64, y.isFinite = true → y.toRat ≠ x.toRat →
    |x.toRat - q| = |y.toRat - q| → x.mantissa % 2 = 0

variable {x y : Binary64} {q : ℚ}

theorem size_nonneg (x : Binary64) : 0 ≤ x.size := by
  unfold size
  positivity

/-! ## Doubles beside one another -/

/-- A double on a coarser scale is a multiple of the unit of the finer one. -/
theorem exists_size_eq_mul (h : x.scale ≤ y.scale) : ∃ n : ℕ, y.size = n * 2 ^ x.scale := by
  refine ⟨y.mantissa * 2 ^ (y.scale - x.scale).toNat, ?_⟩
  have hpow : (2 : ℚ) ^ y.scale = 2 ^ (y.scale - x.scale).toNat * 2 ^ x.scale := by
    rw [← zpow_natCast, ← zpow_add₀ (by norm_num)]
    congr 1
    omega
  rw [size, hpow]
  push_cast
  ring

/-- Only the smallest doubles have a mantissa that is not full. -/
theorem mantissa_ge_of_scale_lt (h : y.scale < x.scale) : 2 ^ 52 ≤ x.mantissa := by
  simp only [scale] at h
  simp only [mantissa, beq_iff_eq]
  split <;> omega

/-- On a finer scale, even the greatest mantissa falls short of a full one by half a unit. -/
theorem size_le_of_scale_lt (h : y.scale < x.scale) :
    y.size ≤ (2 ^ 52 - 1 / 2) * 2 ^ x.scale := by
  have hpow : (2 : ℚ) ^ y.scale ≤ 2 ^ x.scale / 2 := by
    rw [div_eq_mul_inv, ← zpow_sub_one₀ (by norm_num)]
    exact zpow_le_zpow_right₀ (by norm_num) (by omega)
  have hm : (y.mantissa : ℚ) ≤ 2 ^ 53 - 1 := by
    rw [le_sub_iff_add_le]
    exact_mod_cast y.mantissa_lt
  calc y.size ≤ (2 ^ 53 - 1) * (2 ^ x.scale / 2) := by
        unfold size
        gcongr
    _ = (2 ^ 52 - 1 / 2) * 2 ^ x.scale := by ring

/-- Halfway to a greater double, the interval of `x` has ended. -/
theorem high_le_midpoint (h : x.size < y.size) : 2 * (x.high * x.quarter) ≤ x.size + y.size := by
  have hpos : (0 : ℚ) < 2 ^ x.scale := by positivity
  have hnext : ((x.mantissa + 1 : ℕ) : ℚ) * 2 ^ x.scale ≤ y.size := by
    rcases le_or_gt x.scale y.scale with hs | hs
    · obtain ⟨n, hn⟩ := exists_size_eq_mul hs
      rw [hn] at h ⊢
      have hlt : x.mantissa < n := by exact_mod_cast lt_of_mul_lt_mul_right h hpos.le
      exact mul_le_mul_of_nonneg_right (by exact_mod_cast hlt) hpos.le
    · -- on a finer scale there is nothing greater
      have hm : (2 ^ 52 : ℚ) ≤ x.mantissa := by exact_mod_cast mantissa_ge_of_scale_lt hs
      have hle := size_le_of_scale_lt hs
      have hx : 2 ^ 52 * 2 ^ x.scale ≤ x.size := mul_le_mul_of_nonneg_right hm hpos.le
      linarith
  rw [quarter, zpow_sub₀ (by norm_num), high, size]
  push_cast at hnext ⊢
  linarith

/-- Halfway to a smaller double, the interval of `x` has not begun. -/
theorem midpoint_le_low (h : y.size < x.size) : x.size + y.size ≤ 2 * (x.low * x.quarter) := by
  have hpos : (0 : ℚ) < 2 ^ x.scale := by positivity
  have hm : 1 ≤ x.mantissa := by
    by_contra hm
    have hzero : x.size = 0 := by simp [size, show x.mantissa = 0 by omega]
    exact absurd (hzero ▸ h) (not_lt.2 y.size_nonneg)
  have hquarter : x.quarter = 2 ^ x.scale / 4 := by
    rw [quarter, zpow_sub₀ (by norm_num)]
    norm_num
  rw [hquarter, size]
  rcases le_or_gt x.scale y.scale with hs | hs
  · -- a multiple of the unit of `x` that is smaller is smaller by a unit
    obtain ⟨n, hn⟩ := exists_size_eq_mul hs
    rw [hn] at h ⊢
    have hlt : n < x.mantissa := by exact_mod_cast lt_of_mul_lt_mul_right h hpos.le
    have hlow : 2 * x.mantissa + 2 * n ≤ x.low := by
      unfold low
      split <;> omega
    have hlow' : (2 * x.mantissa + 2 * n : ℚ) * 2 ^ x.scale ≤ x.low * 2 ^ x.scale :=
      mul_le_mul_of_nonneg_right (by exact_mod_cast hlow) hpos.le
    linarith
  · -- from a full mantissa, the next smaller double is half a unit away
    have hfull := mantissa_ge_of_scale_lt hs
    have hle := size_le_of_scale_lt hs
    have hlow : 2 * x.mantissa + 2 ^ 53 - 1 ≤ x.low := by
      have hexp : 1 < x.exponent.val := by
        simp only [scale] at hs
        omega
      simp only [low, narrowBelow, mantissa, hexp, decide_true, Bool.and_true, beq_iff_eq]
        at hfull ⊢
      split <;> split <;> omega
    have hlow' : (2 * x.mantissa + 2 ^ 53 - 1 : ℚ) * 2 ^ x.scale ≤ x.low * 2 ^ x.scale := by
      refine mul_le_mul_of_nonneg_right ?_ hpos.le
      have : 2 * x.mantissa + 2 ^ 53 ≤ x.low + 1 := by omega
      have hcast : (2 * x.mantissa + 2 ^ 53 : ℚ) ≤ x.low + 1 := by exact_mod_cast this
      linarith
    linarith

/-! ## Nearest doubles -/

/-- A number is at least as near to the double that it rounds to as to any other. -/
theorem RoundsTo.dist_le (h : RoundsTo q x) (y : Binary64) :
    |x.size - q| ≤ |y.size - q| ∧
      (y.size ≠ x.size → |x.size - q| = |y.size - q| → x.mantissa % 2 = 0) := by
  rcases lt_trichotomy y.size x.size with hlt | heq | hgt
  · have hmid := midpoint_le_low hlt
    have hlow := h.low_le
    have hy : |y.size - q| = q - y.size := by rw [abs_sub_comm, abs_of_pos (by linarith)]
    rw [hy]
    refine ⟨abs_le.2 ⟨by linarith, by linarith⟩, fun _ htie => h.even_of_low ?_⟩
    rcases abs_choice (x.size - q) with hx | hx <;> rw [hx] at htie <;> linarith
  · rw [heq]
    exact ⟨le_refl _, fun hne => absurd rfl hne⟩
  · have hmid := high_le_midpoint hgt
    have hhigh := h.le_high
    have hy : |y.size - q| = y.size - q := abs_of_pos (by linarith)
    rw [hy]
    refine ⟨abs_le.2 ⟨by linarith, by linarith⟩, fun _ htie => h.even_of_high ?_⟩
    rcases abs_choice (x.size - q) with hx | hx <;> rw [hx] at htie <;> linarith

theorem dist_toRat (hq : 0 ≤ q) (negative : Bool) (y : Binary64) :
    |y.toRat - if negative then -q else q| =
      if y.negative = negative then |y.size - q| else y.size + q := by
  have hy := y.size_nonneg
  unfold toRat
  cases y.negative <;> cases negative <;> simp only [if_true, if_false, reduceCtorEq]
  · rw [sub_neg_eq_add, abs_of_nonneg (by linarith)]
  · rw [abs_of_nonpos (by linarith)]
    ring
  · rw [← abs_neg]
    ring_nf

/-- The double that a number rounds to is the nearest one, whatever signs the others have. -/
theorem RoundsTo.isNearest (h : RoundsTo q x) (hq : 0 < q) (hf : x.isFinite = true) :
    IsNearest (if x.negative then -q else q) x := by
  have hx := x.size_nonneg
  have hself := dist_toRat hq.le x.negative x
  rw [if_pos rfl] at hself
  have hacross (y : Binary64) : |y.size - q| ≤ y.size + q :=
    abs_le.2 ⟨by linarith [y.size_nonneg], by linarith⟩
  refine ⟨hf, fun y _ => ?_, fun y _ hne htie => ?_⟩
  · rw [hself, dist_toRat hq.le]
    split
    · exact (h.dist_le y).1
    · exact (h.dist_le y).1.trans (hacross y)
  · rw [hself, dist_toRat hq.le] at htie
    split at htie
    · next hsign =>
      refine (h.dist_le y).2 (fun hsize => hne ?_) htie
      rw [toRat, toRat, hsign, hsize]
    · -- as far as across zero is only zero itself
      have hsame := le_antisymm (h.dist_le y).1 ((hacross y).trans htie.ge)
      refine (h.dist_le y).2 (fun hsize => hne ?_) hsame
      have hzero : x.size = 0 := by
        rw [hsize] at htie
        rcases abs_choice (x.size - q) with hc | hc <;> rw [hc] at htie <;> linarith
      simp [toRat, hsize, hzero]

/-- What a double stands for exactly, it is nearest to. -/
theorem isNearest_toRat (hf : x.isFinite = true) : IsNearest x.toRat x := by
  refine ⟨hf, fun y _ => ?_, fun y _ hne htie => absurd ?_ hne⟩
  · rw [sub_self, abs_zero]
    exact abs_nonneg _
  · rw [sub_self, abs_zero, eq_comm, abs_eq_zero, sub_eq_zero] at htie
    exact htie

/-! ## Rounding a quotient -/

/-- The natural number `n` is nearest to `r`, a tie going to the even one. -/
structure NearestNat (r : ℚ) (n : ℕ) : Prop where
  le : 2 * r ≤ 2 * n + 1
  ge : 2 * n ≤ 2 * r + 1
  even_of_le : 2 * r = 2 * n + 1 → n % 2 = 0
  even_of_ge : 2 * n = 2 * r + 1 → n % 2 = 0

theorem nearestNat_roundDiv (num : Nat) {den : Nat} (hd : 0 < den) :
    NearestNat (num / den) (roundDiv num den) := by
  have hd' : (0 : ℚ) < den := by exact_mod_cast hd
  have hsplit : 2 * ((num : ℚ) / den) = 2 * (num / den : ℕ) + (2 * (num % den) : ℕ) / den := by
    have h : (num : ℚ) = den * (num / den : ℕ) + (num % den : ℕ) := by
      exact_mod_cast (Nat.div_add_mod num den).symm
    rw [h]
    field_simp
    push_cast
    ring
  have htwo : ((2 * (num % den) : ℕ) : ℚ) / den < 2 := by
    rw [div_lt_iff₀ hd']
    exact_mod_cast Nat.mul_lt_mul_of_pos_left (Nat.mod_lt num hd) (by decide)
  have hnonneg : (0 : ℚ) ≤ (2 * (num % den) : ℕ) / den := by positivity
  rw [roundDiv]
  cases hc : compare (2 * (num % den)) den with
  | lt =>
    have h : ((2 * (num % den) : ℕ) : ℚ) / den < 1 := by
      rw [div_lt_one hd']
      exact_mod_cast Nat.compare_eq_lt.1 hc
    constructor
    · linarith
    · linarith
    · intro htie
      linarith
    · intro htie
      linarith
  | gt =>
    have h : 1 < ((2 * (num % den) : ℕ) : ℚ) / den := by
      rw [one_lt_div hd']
      exact_mod_cast Nat.compare_eq_gt.1 hc
    constructor
    · push_cast
      linarith
    · push_cast
      linarith
    · intro htie
      push_cast at htie
      linarith
    · intro htie
      push_cast at htie
      linarith
  | eq =>
    have h : ((2 * (num % den) : ℕ) : ℚ) / den = 1 := by
      rw [div_eq_one_iff_eq hd'.ne']
      exact_mod_cast Nat.compare_eq_eq.1 hc
    have heven : (num / den + num / den % 2) % 2 = 0 := by omega
    have hle : ((num / den % 2 : ℕ) : ℚ) ≤ 1 := by exact_mod_cast (by omega : num / den % 2 ≤ 1)
    have hge : (0 : ℚ) ≤ (num / den % 2 : ℕ) := by positivity
    constructor
    · push_cast
      linarith
    · push_cast
      linarith
    · exact fun _ => heven
    · exact fun _ => heven

theorem ofRank_val (negative : Bool) {rank : Nat} (h : rank < 2047 * 2 ^ 52) :
    (ofRank negative rank).exponent.val = rank / 2 ^ 52 ∧
      (ofRank negative rank).fraction.val = rank % 2 ^ 52 := by
  have hmin : min rank (2047 * 0x10000000000000) = rank := by omega
  have he : (ofRank negative rank).exponent.val = rank / 0x10000000000000 % 2048 := by
    rw [ofRank, hmin]
    rfl
  have hf : (ofRank negative rank).fraction.val = rank % 0x10000000000000 := by
    rw [ofRank, hmin]
    rfl
  omega

/-- Mantissa and scale of the number at a position. -/
theorem parts_ofRank (negative : Bool) {k m : Nat} (hm : m < 2 ^ 53) (hfull : 2 ^ 52 ≤ m ∨ k = 0)
    (hr : k * 2 ^ 52 + m < 2047 * 2 ^ 52) :
    (ofRank negative (k * 2 ^ 52 + m)).mantissa = m ∧
      (ofRank negative (k * 2 ^ 52 + m)).scale = k - 1074 ∧
      (ofRank negative (k * 2 ^ 52 + m)).narrowBelow = (m == 2 ^ 52 && 0 < k) := by
  obtain ⟨he, hf⟩ := ofRank_val negative hr
  simp only [mantissa, scale, narrowBelow, beq_iff_eq, he, hf]
  refine ⟨?_, ?_, ?_⟩
  · split <;> omega
  · omega
  · rw [Bool.eq_iff_iff]
    simp only [Bool.and_eq_true, beq_iff_eq, decide_eq_true_eq]
    omega

/-- A mantissa of one digit too many is carried over to the next scale. -/
theorem parts_ofRank_carry (negative : Bool) {k : Nat} (hr : k * 2 ^ 52 + 2 ^ 53 < 2047 * 2 ^ 52) :
    (ofRank negative (k * 2 ^ 52 + 2 ^ 53)).mantissa = 2 ^ 52 ∧
      (ofRank negative (k * 2 ^ 52 + 2 ^ 53)).scale = k - 1074 + 1 ∧
      (ofRank negative (k * 2 ^ 52 + 2 ^ 53)).narrowBelow = true := by
  have hcarry : k * 2 ^ 52 + 2 ^ 53 = (k + 1) * 2 ^ 52 + 2 ^ 52 := by omega
  rw [hcarry] at hr ⊢
  obtain ⟨hmantissa, hscale, hnarrow⟩ := parts_ofRank negative (by norm_num) (.inl (le_refl _)) hr
  refine ⟨hmantissa, ?_, ?_⟩
  · rw [hscale]
    push_cast
    ring
  · rw [hnarrow]
    simp

theorem size_ofRank (negative : Bool) {k m : Nat} (hm : m ≤ 2 ^ 53) (hfull : 2 ^ 52 ≤ m ∨ k = 0)
    (hr : k * 2 ^ 52 + m < 2047 * 2 ^ 52) :
    (ofRank negative (k * 2 ^ 52 + m)).size = m * 2 ^ (k - 1074 : ℤ) := by
  rcases hm.lt_or_eq with hm | rfl
  · obtain ⟨hmantissa, hscale, -⟩ := parts_ofRank negative hm hfull hr
    rw [size, hmantissa, hscale]
  · obtain ⟨hmantissa, hscale, -⟩ := parts_ofRank_carry negative hr
    rw [size, hmantissa, hscale, zpow_add_one₀ (by norm_num)]
    push_cast
    ring

/-- Where a number lies in the interval of `x` is seen in quarters of the unit. -/
theorem roundsTo_of_quarters {c : ℚ} (hq : q = c * x.quarter) (hlow : x.low ≤ c)
    (hhigh : c ≤ x.high) (heven : c = x.low ∨ c = x.high → x.mantissa % 2 = 0) : RoundsTo q x := by
  have hpos := x.quarter_pos
  subst hq
  refine ⟨mul_le_mul_of_nonneg_right hlow hpos.le, mul_le_mul_of_nonneg_right hhigh hpos.le, ?_, ?_⟩
  · exact fun h => heven (.inl (mul_right_cancel₀ hpos.ne' h))
  · exact fun h => heven (.inr (mul_right_cancel₀ hpos.ne' h))

theorem eq_mul_quarter (q : ℚ) (x : Binary64) : q = 4 * (q / 2 ^ x.scale) * x.quarter := by
  rw [quarter, zpow_sub₀ (by norm_num)]
  field_simp
  norm_num

/-- A number rounds to `x` if `x` has the mantissa nearest to it on its scale, and it does not lie
below an `x` that has a narrow interval there. -/
theorem roundsTo_of_nearestNat (hq : 0 ≤ q) (hn : NearestNat (q / 2 ^ x.scale) x.mantissa)
    (hnarrow : x.narrowBelow = true → x.mantissa ≤ q / 2 ^ x.scale) : RoundsTo q x := by
  have hr0 : 0 ≤ q / 2 ^ x.scale := by positivity
  have hlow : (x.low : ℚ) ≤ 4 * (q / 2 ^ x.scale) ∧
      (4 * (q / 2 ^ x.scale) = x.low → x.mantissa % 2 = 0) := by
    rcases Nat.eq_zero_or_pos x.mantissa with hm | hm
    · have hzero : x.low = 0 := by simp [low, hm]
      rw [hzero, hm]
      exact ⟨by simpa using hr0, fun _ => rfl⟩
    · rw [low]
      split
      · next h =>
        have hle := hnarrow h
        rw [Nat.cast_sub (by omega)]
        push_cast
        exact ⟨by linarith, fun _ => by linarith⟩
      · have hge := hn.ge
        rw [Nat.cast_sub (by omega)]
        push_cast
        exact ⟨by linarith, fun h => hn.even_of_ge (by linarith)⟩
  have hhigh : 4 * (q / 2 ^ x.scale) ≤ x.high ∧
      (4 * (q / 2 ^ x.scale) = x.high → x.mantissa % 2 = 0) := by
    have hle := hn.le
    rw [high]
    push_cast
    exact ⟨by linarith, fun h => hn.even_of_le (by linarith)⟩
  exact roundsTo_of_quarters (eq_mul_quarter q x) hlow.1 hhigh.1 (Or.elim · hlow.2 hhigh.2)

/-- A number rounds to the double whose mantissa is nearest to it on its scale. -/
theorem roundsTo_ofRank (negative : Bool) {k m : Nat} (hq : 0 ≤ q)
    (hn : NearestNat (q / 2 ^ (k - 1074 : ℤ)) m) (hlt : q / 2 ^ (k - 1074 : ℤ) < 2 ^ 53)
    (hfull : 2 ^ 52 ≤ q / 2 ^ (k - 1074 : ℤ) ∨ k = 0) (hr : k * 2 ^ 52 + m < 2047 * 2 ^ 52) :
    RoundsTo q (ofRank negative (k * 2 ^ 52 + m)) := by
  have hm : m ≤ 2 ^ 53 := by
    have h : (2 * m : ℚ) < 2 ^ 54 + 1 := by linarith [hn.ge]
    have h' : 2 * m < 2 ^ 54 + 1 := by exact_mod_cast h
    omega
  have hmfull : 2 ^ 52 ≤ m ∨ k = 0 := by
    refine hfull.imp_left fun h => ?_
    have h : (2 ^ 53 : ℚ) ≤ 2 * m + 1 := by linarith [hn.le]
    have h' : 2 ^ 53 ≤ 2 * m + 1 := by exact_mod_cast h
    omega
  rcases hm.lt_or_eq with hm | rfl
  · obtain ⟨hmantissa, hscale, hnarrow⟩ := parts_ofRank negative hm hmfull hr
    refine roundsTo_of_nearestNat hq (by rwa [hmantissa, hscale]) fun h => ?_
    rw [hnarrow, Bool.and_eq_true, beq_iff_eq, decide_eq_true_eq] at h
    rw [hmantissa, hscale, h.1]
    exact_mod_cast hfull.resolve_right h.2.ne'
  · -- the mantissa has one digit too many, so the number lies just below the next scale
    obtain ⟨hmantissa, hscale, hnarrow⟩ := parts_ofRank_carry negative hr
    generalize ofRank negative (k * 2 ^ 52 + 2 ^ 53) = x at *
    have hge := hn.ge
    have hlow : x.low = 2 ^ 54 - 1 := by
      rw [low, hnarrow, hmantissa]
      norm_num
    have hhigh : x.high = 2 ^ 54 + 2 := by
      rw [high, hmantissa]
      norm_num
    have hunit : q / 2 ^ (k - 1074 : ℤ) = 2 * (q / 2 ^ x.scale) := by
      rw [hscale, zpow_add_one₀ (by norm_num)]
      field_simp
    rw [hunit] at hge hlt
    push_cast at hge
    refine roundsTo_of_quarters (eq_mul_quarter q x) ?_ ?_ fun _ => ?_
    · rw [hlow]
      push_cast
      linarith
    · rw [hhigh]
      push_cast
      linarith
    · rw [hmantissa]
      norm_num

theorem magnitude_spec {num den : Nat} (hn : num ≠ 0) (hd : den ≠ 0) :
    (2 : ℚ) ^ magnitude num den ≤ num / den ∧ (num : ℚ) / den < 2 ^ (magnitude num den + 1) := by
  have hd' : (0 : ℚ) < den := by exact_mod_cast Nat.pos_of_ne_zero hd
  obtain ⟨e, he⟩ : ∃ e : ℤ, e = (num.log2 : ℤ) - den.log2 := ⟨_, rfl⟩
  have hlower : (2 : ℚ) ^ (e - 1) < num / den := by
    have h1 : (2 : ℚ) ^ num.log2 ≤ num := by exact_mod_cast Nat.log2_self_le hn
    have h2 : (den : ℚ) < 2 ^ (den.log2 + 1) := by exact_mod_cast Nat.lt_log2_self
    rw [lt_div_iff₀ hd']
    calc (2 : ℚ) ^ (e - 1) * den < 2 ^ (e - 1) * 2 ^ (den.log2 + 1) := by gcongr
      _ = 2 ^ num.log2 := by
        rw [← zpow_natCast, ← zpow_natCast, ← zpow_add₀ (by norm_num), he]
        congr 1
        push_cast
        ring
      _ ≤ num := h1
  have hupper : (num : ℚ) / den < 2 ^ (e + 1) := by
    have h1 : (num : ℚ) < 2 ^ (num.log2 + 1) := by exact_mod_cast Nat.lt_log2_self
    have h2 : (2 : ℚ) ^ den.log2 ≤ den := by exact_mod_cast Nat.log2_self_le hd
    rw [div_lt_iff₀ hd']
    calc (num : ℚ) < 2 ^ (num.log2 + 1) := h1
      _ = 2 ^ (e + 1) * 2 ^ den.log2 := by
        rw [← zpow_natCast, ← zpow_natCast, ← zpow_add₀ (by norm_num), he]
        congr 1
        push_cast
        ring
      _ ≤ 2 ^ (e + 1) * den := by gcongr
  -- the estimate is off by one at most, and one comparison of naturals decides
  have htest : den * Nat.pow 2 e.toNat ≤ num * Nat.pow 2 (-e).toNat ↔ (2 : ℚ) ^ e ≤ num / den := by
    have hpos : (0 : ℚ) < 2 ^ (-e).toNat := by positivity
    rw [le_div_iff₀ hd', ← mul_le_mul_iff_of_pos_right hpos, mul_right_comm,
      Decimal.zpow_mul_toNat (by norm_num), mul_comm (_ ^ _) (den : ℚ), ← Nat.cast_le (α := ℚ)]
    push_cast [Nat.pow_eq]
    rfl
  rw [magnitude, ← he]
  split
  · next h => exact ⟨htest.1 h, hupper⟩
  · next h =>
    rw [sub_add_cancel]
    exact ⟨hlower.le, not_le.1 fun hle => h (htest.2 hle)⟩

theorem lt_of_isFinite_ofRank {negative : Bool} {rank : Nat}
    (h : (ofRank negative rank).isFinite = true) : rank < 2047 * 2 ^ 52 := by
  by_contra hle
  have hmin : min rank (2047 * 0x10000000000000) = 2047 * 0x10000000000000 := by omega
  rw [ofRank, hmin] at h
  cases h

/-- The position of the double for a quotient: on the scale `k - 1074` it has the mantissa that is
nearest to the quotient. The scale is the one that gives it 53 digits, or the least there is. -/
theorem ofRatio_eq_ofRank (negative : Bool) {num den : Nat} (hn : num ≠ 0) (hd : den ≠ 0) :
    ∃ k m : ℕ, ofRatio negative num den = ofRank negative (k * 2 ^ 52 + m) ∧
      NearestNat (num / den / 2 ^ (k - 1074 : ℤ)) m ∧
      (num : ℚ) / den / 2 ^ (k - 1074 : ℤ) < 2 ^ 53 ∧
      (2 ^ 52 ≤ (num : ℚ) / den / 2 ^ (k - 1074 : ℤ) ∨ k = 0) := by
  obtain ⟨hlower, hupper⟩ := magnitude_spec hn hd
  obtain ⟨s, hs⟩ : ∃ s, s = max (magnitude num den - 52) (-1074) := ⟨_, rfl⟩
  have hk : ((s + 1074).toNat : ℤ) - 1074 = s := by omega
  have hpos : (0 : ℚ) < 2 ^ s := by positivity
  have hden : 0 < den * Nat.pow 2 s.toNat :=
    Nat.mul_pos (Nat.pos_of_ne_zero hd) (Nat.pow_pos (by decide))
  have hratio : ((num * Nat.pow 2 (-s).toNat : ℕ) : ℚ) / (den * Nat.pow 2 s.toNat : ℕ) =
      num / den / 2 ^ s := by
    push_cast [Nat.pow_eq]
    rw [← Decimal.zpow_mul_toNat (by norm_num) s]
    field_simp
  have hnearest := nearestNat_roundDiv (num * Nat.pow 2 (-s).toNat) hden
  rw [hratio] at hnearest
  refine ⟨(s + 1074).toNat, roundDiv (num * Nat.pow 2 (-s).toNat) (den * Nat.pow 2 s.toNat), ?_, ?_⟩
  · simp only [ofRatio, if_neg hn, ← hs, show 0x10000000000000 = 2 ^ 52 by norm_num]
  · rw [hk]
    refine ⟨hnearest, ?_, ?_⟩
    · rw [div_lt_iff₀ hpos]
      calc (num : ℚ) / den < 2 ^ (magnitude num den + 1) := hupper
        _ ≤ 2 ^ (53 + s) := zpow_le_zpow_right₀ (by norm_num) (by omega)
        _ = 2 ^ 53 * 2 ^ s := by
          rw [zpow_add₀ (by norm_num)]
          norm_num
    · rcases le_or_gt (magnitude num den - 52) (-1074) with h | h
      · right
        omega
      · left
        rw [le_div_iff₀ hpos]
        calc (2 : ℚ) ^ 52 * 2 ^ s = 2 ^ (52 + s) := by
              rw [zpow_add₀ (by norm_num)]
              norm_num
          _ = 2 ^ magnitude num den := by
              congr 1
              omega
          _ ≤ num / den := hlower

/-- A quotient rounds to the double that is found for it. -/
theorem roundsTo_ofRatio {negative : Bool} {num den : Nat} (hn : num ≠ 0) (hd : den ≠ 0)
    (hf : (ofRatio negative num den).isFinite = true) :
    RoundsTo (num / den) (ofRatio negative num den) := by
  obtain ⟨k, m, heq, hnearest, hlt, hfull⟩ := ofRatio_eq_ofRank negative hn hd
  rw [heq] at hf ⊢
  exact roundsTo_ofRank negative (by positivity) hnearest hlt hfull (lt_of_isFinite_ofRank hf)

/-! ## Rounding an integer -/

theorem NearestNat.eq_of_natCast {n m : ℕ} (h : NearestNat (n : ℚ) m) : m = n := by
  have hle : 2 * n ≤ 2 * m + 1 := by exact_mod_cast h.le
  have hge : 2 * m ≤ 2 * n + 1 := by exact_mod_cast h.ge
  omega

theorem toRat_ofInt_zero : (ofInt 0).toRat = 0 := by
  have hzero : (ofInt 0).mantissa = 0 := rfl
  simp [toRat, size, hzero]

theorem cast_eq_natAbs (n : ℤ) : (n : ℚ) = if n < 0 then -(n.natAbs : ℚ) else n.natAbs := by
  rw [Nat.cast_natAbs, Int.cast_abs]
  split
  · next h => rw [abs_of_neg (by exact_mod_cast h), neg_neg]
  · next h => rw [abs_of_nonneg (by exact_mod_cast not_lt.1 h)]

theorem negative_ofInt (n : ℤ) : (ofInt n).negative = decide (n < 0) := by
  rw [ofInt, ofRatio]
  split <;> rfl

/-- The double of an integer is the nearest one. -/
theorem isNearest_ofInt {n : ℤ} (h : n.natAbs < 2 ^ 64) : IsNearest n (ofInt n) := by
  have hf := isFinite_ofInt h
  rcases eq_or_ne n 0 with rfl | hn
  · have hnearest := isNearest_toRat hf
    rwa [toRat_ofInt_zero] at hnearest
  · have hr : RoundsTo (n.natAbs / (1 : ℕ)) (ofInt n) :=
      roundsTo_ofRatio (Int.natAbs_ne_zero.2 hn) one_ne_zero hf
    rw [Nat.cast_one, div_one] at hr
    have hnearest := hr.isNearest (by exact_mod_cast Int.natAbs_pos.2 hn) hf
    simp only [negative_ofInt, decide_eq_true_eq, ← cast_eq_natAbs] at hnearest
    exact hnearest

/-- What has up to 53 digits is a whole number of units on the scale of its double. -/
theorem exists_natCast_eq_div {n k : ℕ} (hn : n ≤ 2 ^ 53)
    (hfull : 2 ^ 52 ≤ (n : ℚ) / 2 ^ (k - 1074 : ℤ) ∨ k = 0) :
    ∃ j : ℕ, (n : ℚ) / 2 ^ (k - 1074 : ℤ) = j := by
  rcases le_or_gt (k : ℤ) 1074 with hk | hk
  · refine ⟨n * 2 ^ (1074 - k), ?_⟩
    rw [div_eq_mul_inv, ← zpow_neg, neg_sub]
    push_cast
    rw [← zpow_natCast, Nat.cast_sub (by exact_mod_cast hk)]
    rfl
  · -- such a scale calls for 54 digits, and just one number has that many
    have hle := hfull.resolve_right (by omega)
    have hpow : (2 : ℚ) ≤ 2 ^ (k - 1074 : ℤ) := by
      calc (2 : ℚ) = 2 ^ (1 : ℤ) := by norm_num
        _ ≤ 2 ^ (k - 1074 : ℤ) := zpow_le_zpow_right₀ (by norm_num) (by omega)
    have hn' : (n : ℚ) ≤ 2 ^ 53 := by exact_mod_cast hn
    rw [le_div_iff₀ (by positivity)] at hle
    refine ⟨2 ^ 52, ?_⟩
    have hunit : (2 : ℚ) ^ (k - 1074 : ℤ) = 2 := by linarith
    rw [hunit] at hle ⊢
    push_cast
    linarith

/-- An integer of up to 53 digits is a double. -/
theorem toRat_ofInt {n : ℤ} (h : n.natAbs ≤ 2 ^ 53) : (ofInt n).toRat = n := by
  rcases eq_or_ne n 0 with rfl | hn
  · exact toRat_ofInt_zero
  have hf := isFinite_ofInt (show n.natAbs < 2 ^ 64 by omega)
  have hsize : (ofInt n).size = n.natAbs := by
    obtain ⟨k, m, heq, hnearest, hlt, hfull⟩ :=
      ofRatio_eq_ofRank (n < 0) (Int.natAbs_ne_zero.2 hn) one_ne_zero
    rw [Nat.cast_one, div_one] at hnearest hlt hfull
    obtain ⟨j, hj⟩ := exists_natCast_eq_div h hfull
    rw [hj] at hnearest hlt hfull
    cases hnearest.eq_of_natCast
    rw [ofInt, heq] at hf ⊢
    rw [size_ofRank _ (by exact_mod_cast hlt.le) (by exact_mod_cast hfull)
      (lt_of_isFinite_ofRank hf), ← hj]
    field_simp
  simp only [toRat, negative_ofInt, hsize, decide_eq_true_eq, ← cast_eq_natAbs]

/-! ## Equal numbers -/

theorem size_eq_zero_iff : x.size = 0 ↔ x.isZero = true := by
  constructor
  · intro h
    by_contra hz
    have hpos := (roundsTo_self (Bool.eq_false_iff.2 hz)).pos (Bool.eq_false_iff.2 hz)
    exact hpos.ne' h
  · intro h
    simp only [isZero, Bool.and_eq_true, beq_iff_eq] at h
    simp [size, mantissa, h]

theorem toRat_eq_zero_iff : x.toRat = 0 ↔ x.isZero = true := by
  rw [← size_eq_zero_iff, toRat]
  split
  · exact neg_eq_zero
  · exact Iff.rfl

theorem abs_toRat (x : Binary64) : |x.toRat| = x.size := by
  rw [toRat]
  split
  · rw [abs_neg, abs_of_nonneg x.size_nonneg]
  · exact abs_of_nonneg x.size_nonneg

/-- A number other than zero has one double. -/
theorem eq_of_toRat_eq (hx : x.isZero = false) (h : x.toRat = y.toRat) : x = y := by
  have hy : y.isZero = false := by
    rw [Bool.eq_false_iff, ne_eq, ← toRat_eq_zero_iff, ← h, toRat_eq_zero_iff, hx]
    decide
  have hsize : x.size = y.size := by rw [← abs_toRat, h, abs_toRat]
  have hsign : x.negative = y.negative := by
    have hpos : 0 < x.size := (roundsTo_self hx).pos hx
    rw [toRat, toRat, ← hsize] at h
    cases hn : x.negative <;> cases hm : y.negative <;>
      simp only [hn, hm, if_true, if_false, reduceCtorEq] at h ⊢ <;> linarith
  have hrx : RoundsTo x.size x := roundsTo_self hx
  rw [hsize] at hrx
  exact eq_of_roundsTo hsign hrx (roundsTo_self hy)

/-- Finite doubles are equal just if they stand for the same number. -/
theorem numEq_iff_toRat_eq (hx : x.isFinite = true) (hy : y.isFinite = true) :
    x.numEq y = true ↔ x.toRat = y.toRat := by
  simp only [numEq, not_isNaN_of_isFinite hx, not_isNaN_of_isFinite hy, Bool.not_false,
    Bool.true_and, Bool.or_eq_true, beq_iff_eq, Bool.and_eq_true]
  constructor
  · rintro (rfl | ⟨hzx, hzy⟩)
    · rfl
    · rw [toRat_eq_zero_iff.2 hzx, toRat_eq_zero_iff.2 hzy]
  · intro h
    cases hz : x.isZero with
    | true => exact .inr ⟨rfl, toRat_eq_zero_iff.1 (h ▸ toRat_eq_zero_iff.2 hz)⟩
    | false => exact .inl (eq_of_toRat_eq hz h)

end PathQuery.Binary64
