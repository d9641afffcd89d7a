set_option autoImplicit false

/-! # ASCII letters and their case

Methods, schemes and boolean literals are compared without regard to the case of ASCII letters.
Letters beyond ASCII keep their case, as `Char.toUpper` and `Char.toLower` leave them alone. -/

namespace Restconf.Text

/-- The text with its ASCII letters in upper case. -/
def upper (text : String) : String :=
  String.ofList (text.toList.map Char.toUpper)

/-- The text with its ASCII letters in lower case. -/
def lower (text : String) : String :=
  String.ofList (text.toList.map Char.toLower)

theorem toLower_toLower (c : Char) : c.toLower.toLower = c.toLower := by
  have hlower : ¬ (c.toLower.val ≥ 'A'.val ∧ c.toLower.val ≤ 'Z'.val) := by
    by_cases hc : c.val ≥ 'A'.val ∧ c.val ≤ 'Z'.val
    · have hval : c.toLower.val = c.val + ('a'.val - 'A'.val) :=
        congrArg Char.val (dif_pos hc)
      have hA : 'A'.val.toNat = 65 := rfl
      have hZ : 'Z'.val.toNat = 90 := rfl
      have hshift : ('a'.val - 'A'.val).toNat = 32 := rfl
      simp only [hval, ge_iff_le, UInt32.le_iff_toNat_le, UInt32.toNat_add, hA, hZ, hshift] at hc ⊢
      omega
    · have hsame : c.toLower = c := dif_neg hc
      rwa [hsame]
  exact dif_neg hlower

/-- Characters beyond ASCII have no other case. -/
theorem toLower_eq_self {c : Char} (h : 128 ≤ c.toNat) : c.toLower = c := by
  refine dif_neg ?_
  rintro ⟨-, hZ⟩
  have hle : c.toNat ≤ 90 := UInt32.le_iff_toNat_le.1 hZ
  omega

/-- Lower case once is lower case for good. -/
@[simp] theorem lower_lower (text : String) : lower (lower text) = lower text := by
  simp only [lower, String.toList_ofList, List.map_map]
  exact congrArg String.ofList (List.map_congr_left fun c _ => toLower_toLower c)

/-! ## Classes of characters -/

theorem decide_range_iff {low high c : Char} :
    (decide (low.val ≤ c.val) && decide (c.val ≤ high.val)) = true ↔ low ≤ c ∧ c ≤ high := by
  rw [Bool.and_eq_true, decide_eq_true_iff, decide_eq_true_iff]
  rfl

theorem isDigit_iff {c : Char} : c.isDigit = true ↔ '0' ≤ c ∧ c ≤ '9' :=
  decide_range_iff

theorem isAlpha_iff {c : Char} :
    c.isAlpha = true ↔ ('A' ≤ c ∧ c ≤ 'Z') ∨ ('a' ≤ c ∧ c ≤ 'z') := by
  have hupper : c.isUpper = true ↔ 'A' ≤ c ∧ c ≤ 'Z' := decide_eq_true_iff
  have hlower : c.isLower = true ↔ 'a' ≤ c ∧ c ≤ 'z' := decide_range_iff
  rw [← hupper, ← hlower, ← Bool.or_eq_true]
  rfl

theorem isAlphanum_iff {c : Char} :
    c.isAlphanum = true ↔
      (('A' ≤ c ∧ c ≤ 'Z') ∨ ('a' ≤ c ∧ c ≤ 'z')) ∨ ('0' ≤ c ∧ c ≤ '9') := by
  rw [← isAlpha_iff, ← isDigit_iff, ← Bool.or_eq_true]
  rfl

/-- A letter in lower case comes from a letter. -/
theorem isAlpha_of_isAlpha_toLower {c : Char} (h : c.toLower.isAlpha = true) :
    c.isAlpha = true := by
  by_cases hc : c.val ≥ 'A'.val ∧ c.val ≤ 'Z'.val
  · exact isAlpha_iff.2 (Or.inl hc)
  · have hsame : c.toLower = c := dif_neg hc
    rwa [hsame] at h

theorem isAlpha_toLower {c : Char} (h : c.isAlpha = true) : c.toLower.isAlpha = true := by
  by_cases hc : c.toNat < 128
  · have hascii : ∀ n, n < 128 → (Char.ofNat n).isAlpha = true →
        (Char.ofNat n).toLower.isAlpha = true := by
      decide
    rw [← Char.ofNat_toNat c] at h ⊢
    exact hascii _ hc h
  · rwa [toLower_eq_self (Nat.le_of_not_lt hc)]

/-- A character that is no letter is the lower case of itself alone. -/
theorem toLower_eq_iff {c d : Char} (hd : d.isAlpha = false) : c.toLower = d ↔ c = d := by
  have hself : ∀ x : Char, x.isAlpha = false → x.toLower = x := by
    intro x hx
    refine dif_neg fun hrange => ?_
    rw [isAlpha_iff.2 (Or.inl hrange)] at hx
    exact absurd hx (by decide)
  constructor
  · rintro rfl
    by_cases hc : c.isAlpha = true
    · rw [isAlpha_toLower hc] at hd
      exact absurd hd (by decide)
    · exact (hself c (Bool.eq_false_iff.2 hc)).symm
  · rintro rfl
    exact hself c hd

theorem not_isDigit_of_isAlpha {c : Char} (h : c.isAlpha = true) : c.isDigit = false := by
  rw [← Bool.not_eq_true, isDigit_iff]
  rintro ⟨-, hc⟩
  rcases isAlpha_iff.1 h with ⟨hA, -⟩ | ⟨ha, -⟩
  · exact absurd (Char.le_trans hA hc) (by decide)
  · exact absurd (Char.le_trans ha hc) (by decide)

end Restconf.Text
