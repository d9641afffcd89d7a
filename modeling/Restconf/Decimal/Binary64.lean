import Restconf.Decimal.Numeral

set_option autoImplicit false

/-! # Binary64 numbers

Floating-point numbers in the 64-bit binary format, as a sign and a magnitude. The magnitude is
the low 63 bits of the word: an eleven-bit exponent field above 52 fraction bits. Read as a
number it grows with the size of the value, so zero is `0`, the infinities are `2047 * 2 ^ 52`
and everything above is not a number.

All arithmetic is exact in `Nat`. `ofRatio` rounds a quotient to the nearest number, a tie to the
even neighbour; `isNaN_ofRatio` says that a quotient never reads as "not a number". -/

namespace Restconf

/-- A number in the binary64 format. -/
structure Binary64 where
  negative : Bool
  /-- The exponent and fraction fields. -/
  magnitude : Fin (2 ^ 63)
  deriving Repr, DecidableEq

namespace Binary64

/-! ## Words -/

/-- The number with the given word, sign bit first. -/
def ofBits (word : UInt64) : Binary64 :=
  ⟨2 ^ 63 ≤ word.toNat, ⟨word.toNat % 2 ^ 63, Nat.mod_lt _ (by decide)⟩⟩

/-- The word of a number. -/
def toBits (x : Binary64) : UInt64 :=
  UInt64.ofNat ((if x.negative then 2 ^ 63 else 0) + x.magnitude.val)

/-! ## Classes -/

/-- The magnitude of the infinities. -/
def infinite : Nat :=
  2047 * 2 ^ 52

/-- The word stands for no number. -/
def isNaN (x : Binary64) : Bool :=
  infinite < x.magnitude.val

/-- The number is neither infinite nor "not a number". -/
def isFinite (x : Binary64) : Bool :=
  x.magnitude.val < infinite

/-- The number is a zero of either sign. -/
def isZero (x : Binary64) : Bool :=
  x.magnitude.val = 0

/-- Equality of values: the two zeros are the same and "not a number" differs from itself. -/
def same (x y : Binary64) : Bool :=
  !x.isNaN && !y.isNaN && (x = y || (x.isZero && y.isZero))

/-! ## Values

A finite number is `± significand * 2 ^ exponent` units of `2 ^ -1074`. -/

/-- The significand: the fraction field, with a leading one unless the exponent field is zero. -/
def significand (x : Binary64) : Nat :=
  let fraction := x.magnitude.val % 2 ^ 52
  if x.magnitude.val / 2 ^ 52 = 0 then fraction else 2 ^ 52 + fraction

/-- The power of two over the smallest unit. -/
def exponent (x : Binary64) : Nat :=
  x.magnitude.val / 2 ^ 52 - 1

/-- The size of a finite number in units of `2 ^ -1074`. -/
def units (x : Binary64) : Nat :=
  x.significand * 2 ^ x.exponent

/-! ## Rounding -/

/-- The integer nearest to `num / den`, a tie to the even one. -/
def roundHalfEven (num den : Nat) : Nat :=
  let q := num / den
  let r := num % den
  if 2 * r < den then q
  else if den < 2 * r then q + 1
  else q + q % 2

/-- The number nearest to `num / den`, or an infinity if that is too large. The quotient in units
    of `2 ^ (e - 1074)` has at most 53 bits; the magnitude is that integer on top of `e` steps of
    the exponent field, and a carry out of the rounding moves into that field by itself. -/
def ofRatio (negative : Bool) (num den : Nat) : Binary64 :=
  let scaled := num * 2 ^ 1074
  let e := Nat.log2 (scaled / den) - 52
  let m := e * 2 ^ 52 + roundHalfEven scaled (den * 2 ^ e)
  ⟨negative, ⟨min m infinite, Nat.lt_of_le_of_lt (Nat.min_le_right _ _) (by decide)⟩⟩

/-- The number nearest to a decimal fraction. -/
def ofFraction (f : Decimal.Fraction) : Binary64 :=
  ofRatio f.negative f.digits (10 ^ f.places)

theorem isNaN_ofRatio (negative : Bool) (num den : Nat) :
    (ofRatio negative num den).isNaN = false :=
  decide_eq_false (Nat.not_lt.2 (Nat.min_le_right _ _))

theorem same_self {x : Binary64} (h : x.isNaN = false) : x.same x = true := by
  simp [same, h]

end Binary64

end Restconf
