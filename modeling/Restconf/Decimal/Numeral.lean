import Restconf.Power
import Restconf.Text.Cut

set_option autoImplicit false

/-! # Decimal numerals

Reading and writing of numbers in base ten, without exponents and of any length:

```text
integer = ["+" / "-"] 1*DIGIT
decimal = ["+" / "-"] *DIGIT "." 1*DIGIT
```

`integer?_renderInt` says that a written integer reads back. -/

namespace Restconf.Decimal

open Text

/-! ## Writing -/

/-- The shortest numeral of a natural number. -/
def renderNat (n : Nat) : List Char :=
  Nat.toDigits 10 n

/-- The shortest numeral of an integer. -/
def renderInt (n : Int) : List Char :=
  if n < 0 then '-' :: renderNat n.natAbs else renderNat n.natAbs

/-- The numeral of a natural number with zeros in front up to a width. -/
def padded (width n : Nat) : List Char :=
  (renderNat n).leftpad width '0'

/-- The numeral of `n / 10 ^ places` with exactly that many digits after the point. -/
def positional (places n : Nat) : List Char :=
  renderNat (n / 10 ^ places) ++ '.' :: padded places (n % 10 ^ places)

/-! ## Reading -/

/-- Whether a numeral is negative, and what follows its sign. -/
def splitSign : List Char → Bool × List Char
  | '+' :: cs => (false, cs)
  | '-' :: cs => (true, cs)
  | cs => (false, cs)

/-- The text is one or more digits. -/
def isDigits (cs : List Char) : Bool :=
  !cs.isEmpty && cs.all Char.isDigit

/-- The number that digits denote. -/
def valueOf (digits : List Char) : Nat :=
  Nat.ofDigitChars 10 digits 0

/-- Reads an integer. -/
def integer? (cs : List Char) : Option Int :=
  match splitSign cs with
  | (negative, digits) =>
    if isDigits digits then
      some (if negative then -(valueOf digits : Int) else (valueOf digits : Int))
    else none

/-- A decimal fraction `± digits / 10 ^ places`. -/
structure Fraction where
  negative : Bool
  digits : Nat
  places : Nat
  deriving Repr, DecidableEq

/-- Reads a decimal: digits, a point and at least one more digit. -/
def fraction? (cs : List Char) : Option Fraction :=
  match splitSign cs with
  | (negative, unsigned) =>
    match cut? '.' unsigned with
    | some (whole, frac) =>
      if whole.all Char.isDigit && isDigits frac then
        some ⟨negative, valueOf (whole ++ frac), frac.length⟩
      else none
    | none => none

/-! ## A written integer reads back -/

theorem isDigits_renderNat (n : Nat) : isDigits (renderNat n) = true := by
  have h : Nat.toDigits 10 n ≠ [] := Nat.toDigits_ne_nil
  simp only [isDigits, renderNat, Bool.and_eq_true, Bool.not_eq_true', List.isEmpty_eq_false_iff,
    List.all_eq_true]
  exact ⟨h, fun c hc => Nat.isDigit_of_mem_toDigits (by decide) (by decide) hc⟩

theorem valueOf_renderNat (n : Nat) : valueOf (renderNat n) = n :=
  Nat.ofDigitChars_toDigits (by decide) (by decide)

theorem splitSign_of_isDigits {cs : List Char} (h : isDigits cs = true) :
    splitSign cs = (false, cs) := by
  unfold splitSign
  split
  · simp [isDigits] at h
  · simp [isDigits] at h
  · rfl

theorem integer?_renderInt (n : Int) : integer? (renderInt n) = some n := by
  by_cases h : n < 0
  · simp only [renderInt, h, if_true, integer?, splitSign, isDigits_renderNat, valueOf_renderNat]
    exact congrArg some (by omega)
  · simp only [renderInt, h, if_false, integer?, splitSign_of_isDigits (isDigits_renderNat _),
      isDigits_renderNat, valueOf_renderNat, if_true]
    exact congrArg some (by simp; omega)

end Restconf.Decimal
