import Restconf.Power
import Restconf.Text.Hex

set_option autoImplicit false

/-! # UUIDs

A UUID is a number of 128 bits. It is written as five groups of lower-case hexadecimal digits, and
read in any letter case from these groups, bare, in braces or after `urn:uuid:`, or from its digits
without hyphens.

A UUID of version four has 122 free bits; `payload_ofPayload` says that they hold any number. -/

namespace Restconf

/-- A universally unique identifier. -/
structure Uuid where
  value : Fin (2 ^ 128)
  deriving Repr, DecidableEq

namespace Uuid

open Text

/-- The UUID of a number, of which only the low 128 bits count. -/
def ofNat (n : Nat) : Uuid :=
  ⟨⟨n % 2 ^ 128, Nat.mod_lt _ (by decide)⟩⟩

/-! ## Writing -/

/-- The last `count` hexadecimal digits of a number. -/
def hexDigits (n : Nat) : Nat → List Char
  | 0 => []
  | count + 1 => hexDigits (n / 16) count ++ [(n % 16).digitChar]

/-- The lengths of the groups of digits. -/
def groupLengths : List Nat :=
  [8, 4, 4, 4, 12]

/-- The digits in groups of the given lengths. -/
def group : List Nat → List Char → List (List Char)
  | [], _ => []
  | length :: lengths, cs => cs.take length :: group lengths (cs.drop length)

/-- A UUID in its hyphenated form. -/
def render (u : Uuid) : List Char :=
  ['-'].intercalate (group groupLengths (hexDigits u.value.val 32))

instance : ToString Uuid := ⟨fun u => String.ofList u.render⟩

/-! ## Reading -/

/-- Goes on reading a number in hexadecimal digits after `n`. -/
def hexValueFrom (n : Nat) : List Char → Option Nat
  | [] => some n
  | c :: cs => (Hex.value? c).bind fun d => hexValueFrom (16 * n + d) cs

/-- Reads thirty-two digits. -/
def ofDigits? (cs : List Char) : Option Uuid :=
  if cs.length = 32 then (hexValueFrom 0 cs).map ofNat else none

/-- Reads the hyphenated form. -/
def ofGroups? (cs : List Char) : Option Uuid :=
  let groups := cs.splitOn '-'
  if groups.map List.length = groupLengths then ofDigits? groups.flatten else none

/-- What the braces or the name space of a UUID enclose. -/
def unwrap (cs : List Char) : List Char :=
  if cs.head? = some '\x7b' ∧ cs.getLast? = some '\x7d' then cs.tail.dropLast
  else if (cs.take 9).map Char.toLower = "urn:uuid:".toList then cs.drop 9
  else cs

/-- Reads a UUID. -/
def parse? (cs : List Char) : Option Uuid :=
  match ofDigits? cs with
  | some u => some u
  | none => ofGroups? (unwrap cs)

/-! ## Versions -/

/-- The version of a UUID: how it was made. -/
def version (u : Uuid) : Nat :=
  u.value.val / 2 ^ 76 % 16

/-- The UUID of version four with the given payload, of which the low 122 bits count. They go
    around the four bits of the version and the two of the variant. -/
def ofPayload (n : Nat) : Uuid :=
  let low := n % 2 ^ 62
  let middle := n / 2 ^ 62 % 2 ^ 12
  let high := n / 2 ^ 74 % 2 ^ 48
  ofNat (high * 2 ^ 80 + 4 * 2 ^ 76 + middle * 2 ^ 64 + 2 * 2 ^ 62 + low)

/-- The bits of a UUID that are free in version four. -/
def payload (u : Uuid) : Nat :=
  let n := u.value.val
  n / 2 ^ 80 * 2 ^ 74 + n / 2 ^ 64 % 2 ^ 12 * 2 ^ 62 + n % 2 ^ 62

theorem val_ofPayload (n : Nat) :
    (ofPayload n).value.val =
      n / 2 ^ 74 % 2 ^ 48 * 2 ^ 80 + 4 * 2 ^ 76 + n / 2 ^ 62 % 2 ^ 12 * 2 ^ 64 + 2 * 2 ^ 62 +
        n % 2 ^ 62 := by
  apply Nat.mod_eq_of_lt
  omega

theorem version_ofPayload (n : Nat) : (ofPayload n).version = 4 := by
  rw [version, val_ofPayload]
  have hm : n / 2 ^ 62 % 2 ^ 12 < 2 ^ 12 := Nat.mod_lt _ (by decide)
  have hl : n % 2 ^ 62 < 2 ^ 62 := Nat.mod_lt _ (by decide)
  generalize n / 2 ^ 74 % 2 ^ 48 = high, n / 2 ^ 62 % 2 ^ 12 = middle, n % 2 ^ 62 = low at hm hl ⊢
  have h : (high * 2 ^ 80 + 4 * 2 ^ 76 + middle * 2 ^ 64 + 2 * 2 ^ 62 + low) / 2 ^ 76 =
      high * 16 + 4 := by
    omega
  omega

theorem payload_ofPayload (n : Nat) : (ofPayload n).payload = n % 2 ^ 122 := by
  have hn : n % 2 ^ 122 =
      n / 2 ^ 74 % 2 ^ 48 * 2 ^ 74 + n / 2 ^ 62 % 2 ^ 12 * 2 ^ 62 + n % 2 ^ 62 := by
    omega
  rw [payload, val_ofPayload, hn]
  have hm : n / 2 ^ 62 % 2 ^ 12 < 2 ^ 12 := Nat.mod_lt _ (by decide)
  have hl : n % 2 ^ 62 < 2 ^ 62 := Nat.mod_lt _ (by decide)
  generalize n / 2 ^ 74 % 2 ^ 48 = high, n / 2 ^ 62 % 2 ^ 12 = middle, n % 2 ^ 62 = low at hm hl ⊢
  have h₁ : (high * 2 ^ 80 + 4 * 2 ^ 76 + middle * 2 ^ 64 + 2 * 2 ^ 62 + low) / 2 ^ 80 =
      high := by
    omega
  have h₂ : (high * 2 ^ 80 + 4 * 2 ^ 76 + middle * 2 ^ 64 + 2 * 2 ^ 62 + low) / 2 ^ 64 =
      high * 2 ^ 16 + 4 * 2 ^ 12 + middle := by
    omega
  have h₃ : (high * 2 ^ 80 + 4 * 2 ^ 76 + middle * 2 ^ 64 + 2 * 2 ^ 62 + low) % 2 ^ 62 =
      low := by
    omega
  simp only [h₁, h₂, h₃]
  omega

end Uuid

end Restconf
