import Restconf.Text.Cut

set_option autoImplicit false

/-! # White space

The characters with the Unicode property White_Space: twenty-five code points in ten ranges.
Header lists are trimmed of them, and dates may have them before a number. -/

namespace Restconf.Text

/-- The ranges of the property White_Space, both ends included, in ascending order. -/
def blankRanges : List (Nat × Nat) :=
  [(0x09, 0x0D), (0x20, 0x20), (0x85, 0x85), (0xA0, 0xA0), (0x1680, 0x1680), (0x2000, 0x200A),
    (0x2028, 0x2029), (0x202F, 0x202F), (0x205F, 0x205F), (0x3000, 0x3000)]

/-- The character has the property White_Space. -/
def isBlank (c : Char) : Bool :=
  blankRanges.any fun (lo, hi) => lo ≤ c.toNat && c.toNat ≤ hi

example : (blankRanges.map fun (lo, hi) => hi + 1 - lo).sum = 25 := by decide

/-- Every character that core counts as white space has the property. -/
theorem isBlank_of_isWhitespace {c : Char} (h : c.isWhitespace = true) : isBlank c = true := by
  simp only [Char.isWhitespace, Bool.or_eq_true, decide_eq_true_eq] at h
  rcases h with (((rfl | rfl) | rfl) | rfl) <;> decide

/-- The text without white space at its two ends. -/
def trimBlank (cs : List Char) : List Char :=
  trim isBlank cs

/-- The text without white space in front. -/
def skipBlank (cs : List Char) : List Char :=
  cs.dropWhile isBlank

end Restconf.Text
