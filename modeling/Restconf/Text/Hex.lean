set_option autoImplicit false

/-! # Hexadecimal digits

Reading accepts both letter cases; percent escapes are written in upper case and UUIDs in lower
case (`Nat.digitChar`). `value?_digitUpper` says that a written digit reads back. -/

namespace Restconf.Text.Hex

/-- The value of a hexadecimal digit in either letter case. -/
def value? (c : Char) : Option Nat :=
  if '0' ≤ c ∧ c ≤ '9' then some (c.toNat - '0'.toNat)
  else if 'a' ≤ c ∧ c ≤ 'f' then some (c.toNat - 'a'.toNat + 10)
  else if 'A' ≤ c ∧ c ≤ 'F' then some (c.toNat - 'A'.toNat + 10)
  else none

/-- The upper-case digit of a value below sixteen. -/
def digitUpper (n : Nat) : Char :=
  n.digitChar.toUpper

theorem value?_digitChar : ∀ n, n < 16 → value? n.digitChar = some n := by
  decide

theorem value?_digitUpper : ∀ n, n < 16 → value? (digitUpper n) = some n := by
  decide

end Restconf.Text.Hex
