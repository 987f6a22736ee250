import Mathlib
import PathQuery.Decimal.Layout
import PathQuery.Json.Reader
import PathQuery.Proofs.Tokens

/-!
# A double is known by its text

However a double is laid out, its text tells which double it is (`Layout.render_inj`). The argument
goes through the rational numbers:

* every double has an interval of numbers that round to it (`Binary64.RoundsTo`), and no number
  lies in the intervals of two doubles (`Binary64.eq_of_roundsTo`);
* `Decimal.shortest` stays in the interval of its double (`Decimal.roundsTo_shortest`);
* both ways to lay digits out are numerals (`Numeral`), and a numeral is read back as the decimal
  that it stands for (`Numeral.read_text`).
-/

namespace PathQuery

/-- The number that a decimal stands for. -/
def Decimal.value (d : Decimal) : ℚ := d.digits * (10 : ℚ) ^ d.exponent

namespace Binary64

/-! ## Intervals -/

/-- The lower end of the interval of `x`, in quarters of its unit in the last place. -/
def low (x : Binary64) : Nat :=
  if x.narrowBelow then 4 * x.mantissa - 1 else 4 * x.mantissa - 2

/-- The upper end of the interval of `x`, in quarters of its unit in the last place. -/
def high (x : Binary64) : Nat := 4 * x.mantissa + 2

/-- A quarter of the unit in the last place. -/
def quarter (x : Binary64) : ℚ := (2 : ℚ) ^ (x.scale - 2)

theorem quarter_pos (x : Binary64) : 0 < x.quarter := zpow_pos (by norm_num) _

/-- The number `q` rounds to the absolute value of `x`. The ends of the interval belong to it
exactly when the mantissa is even. -/
structure RoundsTo (q : ℚ) (x : Binary64) : Prop where
  low_le : x.low * x.quarter ≤ q
  le_high : q ≤ x.high * x.quarter
  even_of_low : q = x.low * x.quarter → x.mantissa % 2 = 0
  even_of_high : q = x.high * x.quarter → x.mantissa % 2 = 0

variable {x y : Binary64} {q : ℚ}

theorem mantissa_pos (h : x.isZero = false) : 0 < x.mantissa := by
  simp only [isZero, Bool.and_eq_false_iff, beq_eq_false_iff_ne] at h
  simp only [mantissa, beq_iff_eq]
  split <;> omega

/-- The exact value of a double rounds to it. -/
theorem roundsTo_self (h : x.isZero = false) :
    RoundsTo (x.mantissa * (2 : ℚ) ^ x.scale) x := by
  have hm := mantissa_pos h
  have hq := x.quarter_pos
  have hvalue : (x.mantissa : ℚ) * (2 : ℚ) ^ x.scale = (4 * x.mantissa : ℕ) * x.quarter := by
    rw [quarter, zpow_sub₀ (by norm_num)]
    push_cast
    ring
  have hlow : x.low < 4 * x.mantissa := by
    unfold low
    split <;> omega
  have hhigh : 4 * x.mantissa < x.high := by
    unfold high
    omega
  have hlt : x.low * x.quarter < (4 * x.mantissa : ℕ) * x.quarter :=
    mul_lt_mul_of_pos_right (by exact_mod_cast hlow) hq
  have hgt : (4 * x.mantissa : ℕ) * x.quarter < x.high * x.quarter :=
    mul_lt_mul_of_pos_right (by exact_mod_cast hhigh) hq
  rw [hvalue]
  exact ⟨hlt.le, hgt.le, fun h => absurd h hlt.ne', fun h => absurd h hgt.ne⟩

/-- Two intervals with a number in common overlap, and where they only touch, both mantissas are
even. -/
theorem RoundsTo.low_le_high (hx : RoundsTo q x) (hy : RoundsTo q y) {k : Nat}
    (hk : y.scale = x.scale + k) :
    y.low * 2 ^ k ≤ x.high ∧
      (y.low * 2 ^ k = x.high → x.mantissa % 2 = 0 ∧ y.mantissa % 2 = 0) := by
  have hq := x.quarter_pos
  have hquarter : y.quarter = 2 ^ k * x.quarter := by
    rw [quarter, quarter, hk, add_sub_right_comm, zpow_add₀ (by norm_num), zpow_natCast, mul_comm]
  have hend : (y.low : ℚ) * y.quarter = (y.low * 2 ^ k : ℕ) * x.quarter := by
    rw [hquarter]
    push_cast
    ring
  constructor
  · have hle : ((y.low * 2 ^ k : ℕ) : ℚ) * x.quarter ≤ x.high * x.quarter :=
      hend ▸ hy.low_le.trans hx.le_high
    exact_mod_cast le_of_mul_le_mul_right hle hq
  · intro htouch
    have hsame : (y.low : ℚ) * y.quarter = x.high * x.quarter := by rw [hend, htouch]
    have hhigh : q = x.high * x.quarter := le_antisymm hx.le_high (hsame ▸ hy.low_le)
    exact ⟨hx.even_of_high hhigh, hy.even_of_low (hhigh.trans hsame.symm)⟩

theorem mantissa_lt (x : Binary64) : x.mantissa < 2 ^ 53 := by
  have := x.fraction.isLt
  simp only [mantissa]
  split <;> omega

/-- Doubles of different scale have disjoint intervals: what lies above has a full mantissa. -/
theorem RoundsTo.scale_le (hx : RoundsTo q x) (hy : RoundsTo q y) : y.scale ≤ x.scale := by
  by_contra hlt
  obtain ⟨k, hk⟩ : ∃ k : Nat, y.scale = x.scale + (k + 1 : ℕ) :=
    ⟨(y.scale - x.scale - 1).toNat, by omega⟩
  obtain ⟨hle, hparity⟩ := hx.low_le_high hy hk
  have hexponent : 1 < y.exponent.val := by
    simp only [scale] at hlt
    omega
  have hlow : 2 ^ 54 - 1 ≤ y.low ∧ (y.low = 2 ^ 54 - 1 ∨ 2 ^ 54 < y.low) := by
    simp only [low, narrowBelow, mantissa, hexponent, decide_true, Bool.and_true, beq_iff_eq]
    split <;> split <;> omega
  have hpow : 2 * y.low ≤ y.low * 2 ^ (k + 1) := by
    rw [pow_succ, mul_comm _ 2, mul_left_comm]
    exact Nat.mul_le_mul_left 2 (Nat.le_mul_of_pos_right _ (by positivity))
  have hm := x.mantissa_lt
  simp only [high] at hle hparity
  have htouch : y.low * 2 ^ (k + 1) = 4 * x.mantissa + 2 := by omega
  have := (hparity htouch).1
  omega

/-- On one scale the interval of the greater mantissa lies above. -/
theorem RoundsTo.mantissa_le (hx : RoundsTo q x) (hy : RoundsTo q y) (h : y.scale = x.scale) :
    y.mantissa ≤ x.mantissa := by
  obtain ⟨hle, hparity⟩ := hx.low_le_high hy (k := 0) (by rw [h, Nat.cast_zero, add_zero])
  simp only [pow_zero, mul_one, high] at hle hparity
  have hlow : 4 * y.mantissa - 2 ≤ y.low := by
    unfold low
    split <;> omega
  by_contra hlt
  have htouch : y.low = 4 * x.mantissa + 2 := by omega
  have := hparity htouch
  omega

/-- Scale and mantissa determine a double up to its sign. -/
theorem eq_of_scale_mantissa (hsign : x.negative = y.negative) (hscale : x.scale = y.scale)
    (hmantissa : x.mantissa = y.mantissa) : x = y := by
  obtain ⟨negative, exponent, fraction⟩ := x
  obtain ⟨negative', exponent', fraction'⟩ := y
  have hf := fraction.isLt
  have hf' := fraction'.isLt
  have hfields : exponent.val = exponent'.val ∧ fraction.val = fraction'.val := by
    simp only [scale, mantissa, beq_iff_eq] at hscale hmantissa
    split at hmantissa <;> split at hmantissa <;> omega
  cases hsign
  cases Fin.ext hfields.1
  cases Fin.ext hfields.2
  rfl

/-- There is one zero of each sign. -/
theorem eq_of_isZero (hsign : x.negative = y.negative) (hx : x.isZero = true)
    (hy : y.isZero = true) : x = y := by
  simp only [isZero, Bool.and_eq_true, beq_iff_eq] at hx hy
  refine eq_of_scale_mantissa hsign ?_ ?_
  · rw [scale, scale, hx.1, hy.1]
  · simp only [mantissa, hx, hy]

/-- What rounds to a double other than zero is not zero. -/
theorem RoundsTo.pos (h : RoundsTo q x) (hx : x.isZero = false) : 0 < q := by
  have hm := mantissa_pos hx
  have hlow : 0 < x.low := by
    unfold low
    split <;> omega
  exact (mul_pos (by exact_mod_cast hlow) x.quarter_pos).trans_le h.low_le

/-- No number rounds to two doubles of the same sign. -/
theorem eq_of_roundsTo (hsign : x.negative = y.negative) (hx : RoundsTo q x) (hy : RoundsTo q y) :
    x = y := by
  have hscale : x.scale = y.scale := le_antisymm (hy.scale_le hx) (hx.scale_le hy)
  exact eq_of_scale_mantissa hsign hscale
    (le_antisymm (hy.mantissa_le hx hscale) (hx.mantissa_le hy hscale.symm))

end Binary64

namespace Decimal

open Binary64 (RoundsTo)

/-! ## Shortest decimals -/

theorem zpow_mul_toNat {b : ℚ} (hb : b ≠ 0) (i : Int) :
    b ^ i * b ^ (-i).toNat = b ^ i.toNat := by
  rw [← zpow_natCast, ← zpow_natCast, ← zpow_add₀ hb]
  congr 1
  omega

/-- The comparison of naturals is the comparison of the rational numbers that they scale to. -/
theorem cmpBinary_eq (a : Nat) (i : Int) (n : Nat) (j : Int) :
    cmpBinary a i n j = compare ((a : ℚ) * 10 ^ i) (n * 2 ^ j) := by
  have hpos : (0 : ℚ) < 10 ^ (-i).toNat * 2 ^ (-j).toNat := by positivity
  have hleft : ((a * Nat.pow 10 i.toNat * Nat.pow 2 (-j).toNat : ℕ) : ℚ) =
      a * 10 ^ i * (10 ^ (-i).toNat * 2 ^ (-j).toNat) := by
    push_cast [Nat.pow_eq]
    rw [← zpow_mul_toNat (by norm_num) i]
    ring
  have hright : ((n * Nat.pow 2 j.toNat * Nat.pow 10 (-i).toNat : ℕ) : ℚ) =
      n * 2 ^ j * (10 ^ (-i).toNat * 2 ^ (-j).toNat) := by
    push_cast [Nat.pow_eq]
    rw [← zpow_mul_toNat (by norm_num) j]
    ring
  have hlt := mul_lt_mul_iff_of_pos_right hpos (b := (a : ℚ) * 10 ^ i) (c := n * 2 ^ j)
  have hgt := mul_lt_mul_iff_of_pos_right hpos (b := (n : ℚ) * 2 ^ j) (c := a * 10 ^ i)
  rw [← hleft, ← hright, Nat.cast_lt] at hlt hgt
  rw [cmpBinary]
  rcases lt_trichotomy ((a : ℚ) * 10 ^ i) (n * 2 ^ j) with h | h | h
  · rw [compare_lt_iff_lt.2 h, compare_lt_iff_lt.2 (hlt.2 h)]
  · rw [compare_eq_iff_eq.2 h, compare_eq_iff_eq.2]
    exact_mod_cast (by rw [hleft, hright, h] : ((_ : ℕ) : ℚ) = (_ : ℕ))
  · rw [compare_gt_iff_gt.2 h, compare_gt_iff_gt.2 (hgt.2 h)]

theorem roundsTo_of_readsBackAs {d : Decimal} {x : Binary64} (h : d.readsBackAs x = true) :
    RoundsTo d.value x := by
  simp only [readsBackAs, cmpBinary_eq, Bool.and_eq_true, Bool.or_eq_true, beq_iff_eq,
    compare_gt_iff_gt, compare_lt_iff_lt, compare_eq_iff_eq] at h
  obtain ⟨hlow, hhigh⟩ := h
  refine ⟨?_, ?_, ?_, ?_⟩
  · exact hlow.elim le_of_lt fun h => h.2.ge
  · exact hhigh.elim le_of_lt fun h => h.2.le
  · intro hend
    exact hlow.elim (fun h => absurd hend h.ne') And.left
  · intro hend
    exact hhigh.elim (fun h => absurd hend h.ne) And.left

theorem readsBackAs_of_onGrid {tie : Tie} {x : Binary64} {grid : Int} {d : Decimal}
    (h : onGrid tie x grid = some d) : d.readsBackAs x = true := by
  simp only [onGrid] at h
  split at h
  · next hlower hupper =>
    split at h <;> cases h
    · exact hlower
    · exact hupper
    · split
      · exact hlower
      · exact hupper
    · exact hupper
  · next hlower _ =>
    cases h
    exact hlower
  · next hupper =>
    cases h
    exact hupper
  · cases h

theorem value_exact (x : Binary64) : (exact x).value = x.mantissa * 2 ^ x.scale := by
  have hten : (10 : ℚ) ^ min x.scale 0 = 2 ^ min x.scale 0 * 5 ^ min x.scale 0 := by
    rw [← mul_zpow]
    norm_num
  have htwo : (2 : ℚ) ^ x.scale.toNat * 2 ^ min x.scale 0 = 2 ^ x.scale := by
    rw [← zpow_natCast, ← zpow_add₀ (by norm_num)]
    congr 1
    omega
  have hfive : (5 : ℚ) ^ (-x.scale).toNat * 5 ^ min x.scale 0 = 1 := by
    rw [← zpow_natCast, ← zpow_add₀ (by norm_num), ← zpow_zero (5 : ℚ)]
    congr 1
    omega
  calc (exact x).value
      = x.mantissa * (2 ^ x.scale.toNat * 2 ^ min x.scale 0) *
          (5 ^ (-x.scale).toNat * 5 ^ min x.scale 0) := by
        rw [value, exact, hten]
        push_cast [Nat.pow_eq]
        ring
    _ = x.mantissa * 2 ^ x.scale := by rw [htwo, hfive, mul_one]

/-- Moving zeros into the exponent keeps the value. -/
theorem value_stripZeros (bound : Nat) (d : Decimal) : (stripZeros bound d).value = d.value := by
  induction bound generalizing d with
  | zero => rfl
  | succ bound ih =>
    rw [stripZeros]
    split
    · next h =>
      simp only [bne_iff_ne, ne_eq, Bool.and_eq_true, beq_iff_eq] at h
      obtain ⟨n, hn⟩ := Nat.dvd_of_mod_eq_zero h.2
      rw [ih, value, value, hn, Nat.mul_div_cancel_left n (by decide), zpow_add₀ (by norm_num)]
      push_cast
      ring
    · rfl

/-- The shortest decimal rounds to its double. -/
theorem roundsTo_shortest (tie : Tie) {x : Binary64} (h : x.isZero = false) :
    RoundsTo (shortest tie x).value x := by
  rw [shortest, value_stripZeros]
  cases hfound : (List.range 17).findSome? fun (n : Nat) => onGrid tie x (scaleOf x - 1 - n) with
  | none =>
    rw [Option.getD_none, value_exact]
    exact Binary64.roundsTo_self h
  | some d =>
    obtain ⟨n, -, hn⟩ := List.exists_of_findSome?_eq_some hfound
    exact roundsTo_of_readsBackAs (readsBackAs_of_onGrid hn)

end Decimal

/-! ## Numerals -/

namespace Json.Reader

theorem ofDigits_append (first second : List Char) :
    ofDigits (first ++ second) = ofDigits first * 10 ^ second.length + ofDigits second := by
  simp only [ofDigits, ← Nat.ofDigitChars_eq_foldl]
  rw [Nat.ofDigitChars_append, Nat.ofDigitChars_eq_ofDigitChars_zero, mul_comm]

theorem ofDigits_zeros (n : Nat) : ofDigits (List.replicate n '0') = 0 := by
  rw [ofDigits, ← Nat.ofDigitChars_eq_foldl, Nat.ofDigitChars_replicate_zero, mul_zero]

theorem ofDigits_toDigits (n : Nat) : ofDigits (Nat.toDigits 10 n) = n := by
  rw [ofDigits, ← Nat.ofDigitChars_eq_foldl, Nat.ofDigitChars_ten_toDigits]

/-- Digits are read up to the first character that is none. -/
theorem digits_append {ds rest : List Char} (hne : ds ≠ []) (hd : ∀ c ∈ ds, c.isDigit = true)
    (hr : ∀ c ∈ rest.head?, c.isDigit = false) : digits (ds ++ rest) = some (ds, rest) := by
  have htake : rest.takeWhile Char.isDigit = [] := by
    cases rest with
    | nil => rfl
    | cons c rest => simpa using hr c
  have hdrop : rest.dropWhile Char.isDigit = rest := by
    cases rest with
    | nil => rfl
    | cons c rest => simpa using hr c
  obtain ⟨d, ds, rfl⟩ := List.exists_cons_of_ne_nil hne
  rw [digits, List.takeWhile_append_of_pos hd, List.dropWhile_append_of_pos hd, htake, hdrop,
    List.append_nil]

theorem digits_eq_self {ds : List Char} (hne : ds ≠ []) (hd : ∀ c ∈ ds, c.isDigit = true) :
    digits ds = some (ds, []) := by
  have hend : ∀ c ∈ ([] : List Char).head?, c.isDigit = false := by simp
  rw [← digits_append hne hd hend, List.append_nil]

end Json.Reader

open Json.Reader (ofDigits ofDigits_append ofDigits_zeros ofDigits_toDigits digits_append
  digits_eq_self)

/-- A number as it is written without its sign: digits before the point, digits behind it and an
exponent, of which the last two may be missing. -/
structure Numeral where
  whole : List Char
  fraction : Option (List Char)
  exponent : Option Int

namespace Numeral

/-- There are digits wherever they are called for, and something beside the digits in front. -/
structure Proper (n : Numeral) : Prop where
  whole_ne_nil : n.whole ≠ []
  whole_digits : ∀ c ∈ n.whole, c.isDigit = true
  fraction_ne_nil : ∀ ds ∈ n.fraction, ds ≠ []
  fraction_digits : ∀ ds ∈ n.fraction, ∀ c ∈ ds, c.isDigit = true
  not_integer : n.fraction.isSome ∨ n.exponent.isSome

/-- The characters of an exponent. -/
def exponentText (plus : Bool) (e : Int) : List Char :=
  'e' :: ((if e < 0 then ['-'] else if plus then ['+'] else []) ++ Nat.toDigits 10 e.natAbs)

def text (plus : Bool) (n : Numeral) : List Char :=
  n.whole ++ (n.fraction.elim [] ('.' :: ·) ++ n.exponent.elim [] (exponentText plus))

/-- The decimal that a numeral stands for. -/
def decimal (n : Numeral) : Decimal :=
  ⟨ofDigits (n.whole ++ n.fraction.getD []), n.exponent.getD 0 - (n.fraction.getD []).length⟩

/-- Reads a numeral at the start of a text. -/
def read (cs : List Char) : Option Decimal := do
  let (ds, cs) ← Json.Reader.digits cs
  let (fs, cs) ← Json.Reader.fraction cs
  let (e, _) ← Json.Reader.exponent cs
  return ⟨ofDigits (ds ++ fs.getD []), e.getD 0 - (fs.getD []).length⟩

theorem toDigits_digits (n : Nat) : ∀ c ∈ Nat.toDigits 10 n, c.isDigit = true :=
  fun _ => Nat.isDigit_of_mem_toDigits (by decide) (by decide)

/-- Digits alone are an exponent without a sign. -/
theorem exponent_digits {ds : List Char} (hne : ds ≠ []) (hd : ∀ c ∈ ds, c.isDigit = true) :
    Json.Reader.exponent ('e' :: ds) = some (some (ofDigits ds : Int), []) := by
  have hread := digits_eq_self hne hd
  obtain ⟨c, ds, rfl⟩ := List.exists_cons_of_ne_nil hne
  have hc := hd c List.mem_cons_self
  have hminus : c ≠ '-' := by rintro rfl; cases hc
  have hplus : c ≠ '+' := by rintro rfl; cases hc
  rw [Json.Reader.exponent, if_pos (by rfl), hread, Option.map_some]
  · rintro _ ⟨⟩
    exact hminus rfl
  · rintro _ ⟨⟩
    exact hplus rfl

theorem exponent_exponentText (plus : Bool) (e : Int) :
    Json.Reader.exponent (exponentText plus e) = some (some e, []) := by
  have hread := digits_eq_self Nat.toDigits_ne_nil (toDigits_digits e.natAbs)
  rw [exponentText]
  by_cases hneg : e < 0
  · rw [if_pos hneg, List.singleton_append, Json.Reader.exponent, if_pos (by rfl)]
    simp only [hread, ofDigits_toDigits, Option.map_some]
    rw [show -(e.natAbs : Int) = e by omega]
  · have habs : (e.natAbs : Int) = e := by omega
    rw [if_neg hneg]
    cases plus with
    | true =>
      rw [if_pos rfl, List.singleton_append, Json.Reader.exponent, if_pos (by rfl)]
      simp only [hread, ofDigits_toDigits, Option.map_some, habs]
    | false =>
      rw [if_neg (by decide), List.nil_append,
        exponent_digits Nat.toDigits_ne_nil (toDigits_digits _), ofDigits_toDigits, habs]

theorem exponent_elim (plus : Bool) (e : Option Int) :
    Json.Reader.exponent (e.elim [] (exponentText plus)) = some (e, []) := by
  cases e with
  | none => rfl
  | some e => exact exponent_exponentText plus e

theorem head_exponent (plus : Bool) (e : Option Int) :
    ∀ c ∈ (e.elim [] (exponentText plus)).head?, c = 'e' := by
  cases e <;> simp [exponentText]

variable {n : Numeral}

theorem fraction_text (plus : Bool) (h : n.Proper) :
    Json.Reader.fraction (n.fraction.elim [] ('.' :: ·) ++ n.exponent.elim [] (exponentText plus)) =
      some (n.fraction, n.exponent.elim [] (exponentText plus)) := by
  have hhead := head_exponent plus n.exponent
  cases hf : n.fraction with
  | none =>
    rw [Option.elim_none, List.nil_append, Json.Reader.fraction]
    intro rest hrest
    rw [hrest] at hhead
    exact absurd (hhead '.' rfl) (by decide)
  | some ds =>
    have hend : ∀ c ∈ (n.exponent.elim [] (exponentText plus)).head?, c.isDigit = false := by
      intro c hc
      rw [hhead c hc]
      rfl
    rw [Option.elim_some, List.cons_append, Json.Reader.fraction,
      digits_append (h.fraction_ne_nil ds hf) (h.fraction_digits ds hf) hend, Option.map_some]

/-- A numeral is read back as its decimal. -/
theorem read_text (plus : Bool) (h : n.Proper) : read (n.text plus) = some n.decimal := by
  have hend : ∀ c ∈ (n.fraction.elim [] ('.' :: ·) ++
      n.exponent.elim [] (exponentText plus)).head?, c.isDigit = false := by
    have hhead := head_exponent plus n.exponent
    intro c hc
    cases hf : n.fraction with
    | none =>
      rw [hf] at hc
      rw [hhead c hc]
      rfl
    | some ds =>
      rw [hf] at hc
      cases hc
      rfl
  rw [read, text, digits_append h.whole_ne_nil h.whole_digits hend]
  simp only [Option.bind_eq_bind, Option.bind_some, fraction_text plus h, exponent_elim]
  rfl

theorem isWord_of_isDigit {c : Char} (h : c.isDigit = true) : isWord c = true := by
  simp [isWord, Char.isAlphanum, h]

/-- A numeral is one word that starts with a digit and does not look like an integer. -/
theorem word_text (plus : Bool) (h : n.Proper) :
    (∀ c ∈ n.text plus, isWord c = true) ∧ (∀ c ∈ (n.text plus).head?, c.isDigit = true) ∧
      ∃ c ∈ n.text plus, c.isDigit = false ∧ c ≠ '-' := by
  refine ⟨?_, ?_, ?_⟩
  · have hfraction : ∀ c ∈ n.fraction.elim [] ('.' :: ·), isWord c = true := by
      cases hf : n.fraction with
      | none => simp
      | some ds =>
        refine List.forall_mem_cons.2 ⟨rfl, fun c hc => ?_⟩
        exact isWord_of_isDigit (h.fraction_digits ds hf c hc)
    have hexponent : ∀ c ∈ n.exponent.elim [] (exponentText plus), isWord c = true := by
      cases n.exponent with
      | none => simp
      | some e =>
        refine List.forall_mem_cons.2 ⟨rfl, List.forall_mem_append.2 ⟨?_, fun c hc => ?_⟩⟩
        · split_ifs <;> simp [isWord]
        · exact isWord_of_isDigit (toDigits_digits _ c hc)
    exact List.forall_mem_append.2 ⟨fun c hc => isWord_of_isDigit (h.whole_digits c hc),
      List.forall_mem_append.2 ⟨hfraction, hexponent⟩⟩
  · obtain ⟨d, ds, hwhole⟩ := List.exists_cons_of_ne_nil h.whole_ne_nil
    have hd := h.whole_digits d (hwhole ▸ List.mem_cons_self)
    simpa [text, hwhole] using hd
  · rcases h.not_integer with hf | he
    · obtain ⟨ds, hds⟩ := Option.isSome_iff_exists.1 hf
      exact ⟨'.', by simp [text, hds], rfl, by decide⟩
    · obtain ⟨e, he⟩ := Option.isSome_iff_exists.1 he
      exact ⟨'e', by simp [text, he, exponentText], rfl, by decide⟩

end Numeral

namespace Layout

variable {digits : List Char}

theorem isDigit_of_mem_replicate {k : Nat} : ∀ c ∈ List.replicate k '0', c.isDigit = true := by
  intro c hc
  rw [List.eq_of_mem_replicate hc]
  rfl

/-- The number that digits stand for when the first of them has the given exponent. -/
def valueAt (digits : List Char) (exponent : Int) : ℚ :=
  ofDigits digits * 10 ^ (exponent + 1 - digits.length)

/-- The text is a proper numeral of what the digits stand for. -/
def Denotes (plus : Bool) (text : String) (digits : List Char) (exponent : Int) : Prop :=
  ∃ n : Numeral, n.Proper ∧ text.toList = n.text plus ∧ n.decimal.value = valueAt digits exponent

section

variable (hne : digits ≠ []) (hd : ∀ c ∈ digits, c.isDigit = true) {exponent : Int} (plus : Bool)

include hne hd

/-- A number below one. -/
theorem denotes_fraction (h : exponent < 0) :
    Denotes plus ("0." ++ zeros (-exponent - 1).toNat ++ String.ofList digits) digits exponent := by
  refine ⟨⟨['0'], some (List.replicate (-exponent - 1).toNat '0' ++ digits), none⟩,
    ⟨by simp, by simp, ?_, ?_, .inl rfl⟩, by simp [Numeral.text, zeros], ?_⟩
  · rintro _ ⟨⟩
    simp [hne]
  · rintro _ ⟨⟩
    exact List.forall_mem_append.2 ⟨isDigit_of_mem_replicate, hd⟩
  · have hdigits (k : Nat) :
        ofDigits (['0'] ++ (List.replicate k '0' ++ digits)) = ofDigits digits := by
      rw [ofDigits_append, ofDigits_append, ofDigits_zeros, show ofDigits ['0'] = 0 from rfl]
      omega
    simp only [Numeral.decimal, Decimal.value, Option.getD_some, Option.getD_none, hdigits, valueAt]
    congr 2
    rw [List.length_append, List.length_replicate]
    omega

/-- A number that has no digits behind its point. -/
theorem denotes_whole (h : 0 ≤ exponent) (hlen : digits.length ≤ exponent.toNat + 1) :
    Denotes plus (String.ofList digits ++ zeros (exponent.toNat + 1 - digits.length) ++ ".0") digits
      exponent := by
  obtain ⟨k, hk⟩ : ∃ k : Nat, exponent + 1 = digits.length + k :=
    ⟨exponent.toNat + 1 - digits.length, by omega⟩
  have hsub : exponent.toNat + 1 - digits.length = k := by omega
  rw [hsub]
  refine ⟨⟨digits ++ List.replicate k '0', some ['0'], none⟩,
    ⟨by simp [hne], List.forall_mem_append.2 ⟨hd, isDigit_of_mem_replicate⟩, by simp, by simp,
      .inl rfl⟩, by simp [Numeral.text, zeros], ?_⟩
  have hdigits : ofDigits (digits ++ List.replicate k '0' ++ ['0']) =
      ofDigits digits * 10 ^ k * 10 := by
    rw [ofDigits_append, ofDigits_append, ofDigits_zeros, show ofDigits ['0'] = 0 from rfl,
      List.length_replicate, List.length_singleton, pow_one, add_zero, add_zero]
  have hexp : exponent + 1 - digits.length = k := by omega
  simp only [Numeral.decimal, Decimal.value, Option.getD_some, Option.getD_none, hdigits,
    valueAt, hexp, zpow_natCast]
  push_cast
  norm_num
  ring

/-- A number with digits on both sides of its point. -/
theorem denotes_split (h : 0 ≤ exponent) (hlen : exponent.toNat + 1 < digits.length) :
    Denotes plus (String.ofList (digits.take (exponent.toNat + 1)) ++ "." ++
      String.ofList (digits.drop (exponent.toNat + 1))) digits exponent := by
  refine ⟨⟨digits.take (exponent.toNat + 1), some (digits.drop (exponent.toNat + 1)), none⟩,
    ⟨by simp [hne], fun c hc => hd c (List.mem_of_mem_take hc), ?_, ?_, .inl rfl⟩,
    by simp [Numeral.text], ?_⟩
  · rintro _ ⟨⟩
    exact List.ne_nil_of_length_pos (by rw [List.length_drop]; omega)
  · rintro _ ⟨⟩ c hc
    exact hd c (List.mem_of_mem_drop hc)
  · simp only [Numeral.decimal, Decimal.value, Option.getD_some, Option.getD_none,
      List.take_append_drop, valueAt]
    congr 2
    rw [List.length_drop]
    omega

theorem denotes_positional : Denotes plus (positional digits exponent) digits exponent := by
  simp only [positional]
  split_ifs with hneg hlen
  · exact denotes_fraction hne hd plus hneg
  · exact denotes_whole hne hd plus (by omega) hlen
  · exact denotes_split hne hd plus (by omega) (by omega)

theorem denotes_scientific : Denotes plus (scientific plus digits exponent) digits exponent := by
  have hsign : (if exponent < 0 then "-" else if plus then "+" else "").toList =
      if exponent < 0 then ['-'] else if plus then ['+'] else [] := by
    split_ifs <;> rfl
  obtain ⟨d, ds, rfl⟩ := List.exists_cons_of_ne_nil hne
  obtain ⟨hfirst, hds⟩ := List.forall_mem_cons.1 hd
  cases ds with
  | nil =>
    refine ⟨⟨[d], none, some exponent⟩,
      ⟨by simp, by simpa using hfirst, by simp, by simp, .inr rfl⟩, ?_, ?_⟩
    · simp [scientific, Numeral.text, Numeral.exponentText, hsign]
    · simp [Numeral.decimal, Decimal.value, valueAt]
  | cons d' ds =>
    refine ⟨⟨[d], some (d' :: ds), some exponent⟩,
      ⟨by simp, by simpa using hfirst, by simp, by simpa using hds, .inl rfl⟩, ?_, ?_⟩
    · simp [scientific, Numeral.text, Numeral.exponentText, hsign]
    · simp only [Numeral.decimal, Decimal.value, valueAt, Option.getD_some, List.singleton_append]
      congr 2
      simp only [List.length_cons]
      omega

end

/-- The text of a number without its sign. -/
def unsigned (layout : Layout) (x : Binary64) : String :=
  if x.isZero then "0.0"
  else
    let decimal := Decimal.shortest layout.tie x
    let digits := Nat.toDigits 10 decimal.digits
    let exponent := decimal.exponent + digits.length - 1
    if layout.plainFrom ≤ exponent && exponent ≤ layout.plainTo then positional digits exponent
    else scientific layout.plus digits exponent

theorem render_eq (layout : Layout) (x : Binary64) :
    layout.render x = (if x.negative then "-" else "") ++ layout.unsigned x := by
  simp only [render, unsigned]
  split_ifs <;> rfl

/-- The text of a number is a numeral whose value rounds to the number. -/
theorem unsigned_numeral (layout : Layout) (x : Binary64) :
    ∃ n : Numeral, n.Proper ∧ (layout.unsigned x).toList = n.text layout.plus ∧
      if x.isZero then n.decimal.value = 0 else Binary64.RoundsTo n.decimal.value x := by
  unfold unsigned
  by_cases hzero : x.isZero = true
  · simp only [hzero, if_true]
    refine ⟨⟨['0'], some ['0'], none⟩, ⟨by simp, by simp, by simp, by simp, .inl rfl⟩, rfl, ?_⟩
    simp [Numeral.decimal, Decimal.value, ofDigits]
  · rw [Bool.not_eq_true] at hzero
    have hrounds := Decimal.roundsTo_shortest layout.tie hzero
    simp only [hzero, Bool.false_eq_true, if_false]
    generalize Decimal.shortest layout.tie x = d at hrounds ⊢
    have hvalue : valueAt (Nat.toDigits 10 d.digits)
        (d.exponent + (Nat.toDigits 10 d.digits).length - 1) = d.value := by
      rw [valueAt, ofDigits_toDigits, sub_add_cancel, add_sub_cancel_right, Decimal.value]
    have hdigits := Numeral.toDigits_digits d.digits
    rw [← hvalue] at hrounds
    split_ifs
    · obtain ⟨n, hn, htext, hv⟩ := denotes_positional Nat.toDigits_ne_nil hdigits layout.plus
      exact ⟨n, hn, htext, hv ▸ hrounds⟩
    · obtain ⟨n, hn, htext, hv⟩ := denotes_scientific Nat.toDigits_ne_nil hdigits layout.plus
      exact ⟨n, hn, htext, hv ▸ hrounds⟩

/-- The text of a number is one word. It starts with a digit or a minus sign, and does not look like
an integer. -/
theorem word_render (layout : Layout) (x : Binary64) :
    (∀ c ∈ (layout.render x).toList, isWord c = true) ∧
      (∃ c ∈ (layout.render x).toList.head?, c = '-' ∨ c.isDigit = true) ∧
      ∃ c ∈ (layout.render x).toList, c.isDigit = false ∧ c ≠ '-' := by
  obtain ⟨n, hn, htext, -⟩ := layout.unsigned_numeral x
  obtain ⟨hword, hhead, c, hc, hmark⟩ := Numeral.word_text layout.plus hn
  rw [render_eq, String.toList_append, htext]
  cases x.negative with
  | true =>
    exact ⟨List.forall_mem_cons.2 ⟨rfl, hword⟩, ⟨'-', rfl, .inl rfl⟩, c,
      List.mem_cons_of_mem _ hc, hmark⟩
  | false =>
    obtain ⟨d, hd⟩ : ∃ d, (n.text layout.plus).head? = some d :=
      Option.ne_none_iff_exists'.1 fun h => List.ne_nil_of_mem hc (List.head?_eq_none_iff.1 h)
    exact ⟨hword, ⟨d, hd, .inr (hhead d hd)⟩, c, hc, hmark⟩

theorem eq_of_unsigned (layout : Layout) {x y : Binary64} (hsign : x.negative = y.negative)
    (h : layout.unsigned x = layout.unsigned y) : x = y := by
  obtain ⟨n, hn, htext, hvalue⟩ := layout.unsigned_numeral x
  obtain ⟨n', hn', htext', hvalue'⟩ := layout.unsigned_numeral y
  have hdecimal : n.decimal = n'.decimal := by
    have hread := Numeral.read_text layout.plus hn
    rw [← htext, h, htext', Numeral.read_text layout.plus hn'] at hread
    exact (Option.some.inj hread).symm
  rw [← hdecimal] at hvalue'
  cases hx : x.isZero <;> cases hy : y.isZero <;> simp only [hx, hy] at hvalue hvalue'
  · exact Binary64.eq_of_roundsTo hsign hvalue hvalue'
  · exact absurd hvalue' (hvalue.pos hx).ne'
  · exact absurd hvalue (hvalue'.pos hy).ne'
  · exact Binary64.eq_of_isZero hsign hx hy

/-- In every layout, a number is known by its text. -/
theorem render_inj (layout : Layout) {x y : Binary64} (h : layout.render x = layout.render y) :
    x = y := by
  have hfirst (z : Binary64) : '-' ∉ (layout.unsigned z).toList.head? := by
    obtain ⟨n, hn, htext, -⟩ := layout.unsigned_numeral z
    intro hminus
    rw [htext] at hminus
    exact absurd ((Numeral.word_text layout.plus hn).2.1 '-' hminus) (by decide)
  simp only [render_eq, ← String.toList_inj, String.toList_append] at h
  cases hx : x.negative <;> cases hy : y.negative <;> rw [hx, hy] at h
  · exact layout.eq_of_unsigned (hx.trans hy.symm) (String.toList_inj.1 h)
  · refine absurd ?_ (hfirst x)
    rw [show (layout.unsigned x).toList = '-' :: (layout.unsigned y).toList from h]
    rfl
  · refine absurd ?_ (hfirst y)
    rw [show (layout.unsigned y).toList = '-' :: (layout.unsigned x).toList from h.symm]
    rfl
  · exact layout.eq_of_unsigned (hx.trans hy.symm) (String.toList_inj.1 (List.cons.inj h).2)

end Layout

end PathQuery
