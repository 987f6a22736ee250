/-!
# Double-precision numbers

A floating-point number is held by the three fields of its 64-bit form. Nothing here computes with
such numbers: they are read, compared and written, so exact arithmetic on naturals is all that is
needed.
-/

namespace PathQuery

/-- A 64-bit binary floating-point number: sign, biased exponent of 11 bits and fraction of 52
bits. -/
structure Binary64 where
  negative : Bool
  exponent : Fin 2048
  fraction : Fin 0x10000000000000
deriving DecidableEq

namespace Binary64

/-- The number whose 64-bit form is `bits`. -/
def ofBits (bits : Nat) : Binary64 where
  negative := bits / 0x8000000000000000 % 2 == 1
  exponent := Fin.ofNat 2048 (bits / 0x10000000000000)
  fraction := Fin.ofNat 0x10000000000000 bits

/-- The largest exponent marks the infinities (fraction zero) and everything that is not a number.
-/
def isFinite (x : Binary64) : Bool := x.exponent.val < 2047

def isNaN (x : Binary64) : Bool := x.exponent.val == 2047 && x.fraction.val != 0

theorem not_isNaN_of_isFinite {x : Binary64} (h : x.isFinite = true) : x.isNaN = false := by
  simp only [isFinite, decide_eq_true_eq] at h
  simp only [isNaN, Bool.and_eq_false_iff, beq_eq_false_iff_ne]
  exact .inl (by omega)

def isZero (x : Binary64) : Bool := x.exponent.val == 0 && x.fraction.val == 0

/-- Numeric equality: what is not a number equals nothing, and the two zeros are equal. -/
def numEq (x y : Binary64) : Bool :=
  !x.isNaN && !y.isNaN && (x == y || (x.isZero && y.isZero))

theorem numEq_comm (x y : Binary64) : x.numEq y = y.numEq x := by
  simp only [numEq, Bool.and_comm, BEq.comm]

/-- Only what is not a number differs from itself. -/
theorem numEq_self (x : Binary64) : x.numEq x = !x.isNaN := by
  simp [numEq]

/-- A finite number is `mantissa * 2 ^ scale`, up to its sign. -/
def mantissa (x : Binary64) : Nat :=
  if x.exponent.val == 0 then x.fraction.val else 0x10000000000000 + x.fraction.val

@[inherit_doc mantissa]
def scale (x : Binary64) : Int := (max x.exponent.val 1 : Nat) - 1075

/-- The neighbour below a power of two lies half as far away as the neighbour above, except at the
bottom of the range. -/
def narrowBelow (x : Binary64) : Bool := x.fraction.val == 0 && 1 < x.exponent.val

end Binary64

end PathQuery
