import Restconf.Decimal.Binary64

set_option autoImplicit false

/-! # Shortest decimals

The text of a binary64 number is positional and never has an exponent. A number without a
fraction is written in full with `.0`; any other is written with the fewest decimal places that
read back as the same number. Of two such decimals the nearer one is taken, and the larger one
if they are equally near.

A number reads back from every decimal between the midpoints to its two neighbours, the midpoints
included if its significand is even. Whether a multiple of `10 ^ -places` lies there is decided
in `Nat`, with the number and its midpoints in units of `2 ^ -1076`. -/

namespace Restconf.Binary64

open Decimal

/-! ## The decimals that read back -/

/-- The midpoint to the next smaller number, in units of `2 ^ -1076`. Below a power of two the
    numbers lie twice as close. -/
def lowerEnd (x : Binary64) : Nat :=
  let gap := if x.significand = 2 ^ 52 ∧ 0 < x.exponent then 1 else 2
  (4 * x.significand - gap) * 2 ^ x.exponent

/-- The midpoint to the next larger number, in units of `2 ^ -1076`. -/
def upperEnd (x : Binary64) : Nat :=
  (4 * x.significand + 2) * 2 ^ x.exponent

/-- The two values are in order; a midpoint counts if the significand is even. -/
def inOrder (x : Binary64) (a b : Nat) : Bool :=
  if x.significand % 2 = 0 then a ≤ b else a < b

/-- The nearest multiple of `10 ^ -places` that reads back as `x`, in these units. Only the two
    multiples around `x` can be nearest. -/
def nearest? (x : Binary64) (places : Nat) : Option Nat :=
  let scale := 10 ^ places
  let value := 4 * x.units * scale
  let below := value / 2 ^ 1076
  let belowReads := x.inOrder (x.lowerEnd * scale) (below * 2 ^ 1076)
  let aboveReads := x.inOrder ((below + 1) * 2 ^ 1076) (x.upperEnd * scale)
  if belowReads && (!aboveReads || 2 * (value % 2 ^ 1076) < 2 ^ 1076) then some below
  else if aboveReads then some (below + 1)
  else none

/-! ## The text -/

/-- A number without a fraction. -/
def isIntegral (x : Binary64) : Bool :=
  x.units % 2 ^ 1074 = 0

/-- The decimal places of a finite number, and the number in units of the last place. With 1074
    places every number is exact. -/
def places (x : Binary64) : Nat × Nat :=
  if x.isIntegral then (1, 10 * (x.units / 2 ^ 1074))
  else
    ((List.range 1074).findSome? fun k => (x.nearest? (k + 1)).map (k + 1, ·)).getD
      (1074, x.units * 10 ^ 1074 / 2 ^ 1074)

/-- The text of a number. -/
def render (x : Binary64) : List Char :=
  if x.isNaN then ['N', 'a', 'N']
  else
    let unsigned := if x.isFinite then positional x.places.1 x.places.2 else ['i', 'n', 'f']
    if x.negative then '-' :: unsigned else unsigned

end Restconf.Binary64
