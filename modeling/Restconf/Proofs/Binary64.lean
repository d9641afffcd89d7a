import Mathlib.Tactic.Ring
import Restconf.Decimal.Shortest
import Restconf.Proofs.Decimal

set_option autoImplicit false

/-! # Rounded decimals and written numbers

A quotient is rounded to a finite number unless it reaches the midpoint above the largest one
(`isFinite_ofRatio_iff`), and the text of a finite number is a decimal that is rounded to the number
again (`render_denotes`). `RoundsTo` says which quotients a number takes: those between the
midpoints to its two neighbours. That they are rounded to the number is `ofRatio_of_roundsTo`, and
that only such a decimal is written is `places_spec`. -/

namespace Restconf.Binary64

open Decimal

/-! ## The fields of a number -/

theorem magnitude_eq (x : Binary64) : x.magnitude.val = x.exponent * 2 ^ 52 + x.significand := by
  simp only [exponent, significand]
  split <;> omega

theorem isFinite_iff {x : Binary64} : x.isFinite = true ↔ x.magnitude.val < infinite :=
  decide_eq_true_iff

theorem significand_lt (x : Binary64) : x.significand < 2 ^ 53 := by
  simp only [significand]
  split <;> omega

/-- Only the smallest numbers do without a leading one. -/
theorem exponent_eq_zero_or_le (x : Binary64) : x.exponent = 0 ∨ 2 ^ 52 ≤ x.significand := by
  simp only [exponent, significand]
  split <;> omega

/-! ## Rounding -/

/-- The integer is at most a half away from the quotient, and less if it is odd. -/
structure Nearest (num den k : Nat) : Prop where
  lower : 2 * (k * den) ≤ 2 * num + den
  upper : 2 * num ≤ 2 * (k * den) + den
  tie : k % 2 = 1 → 2 * (k * den) ≠ 2 * num + den ∧ 2 * num ≠ 2 * (k * den) + den

theorem nearest_roundHalfEven {num den : Nat} (hden : 0 < den) :
    Nearest num den (roundHalfEven num den) := by
  have hnum : num / den * den + num % den = num := Nat.div_add_mod' num den
  have hmod : num % den < den := Nat.mod_lt num hden
  simp only [roundHalfEven]
  generalize num / den = q at *
  generalize num % den = r at *
  have hnext : (q + 1) * den = q * den + den := Nat.succ_mul q den
  split
  · exact ⟨by omega, by omega, fun _ => by omega⟩
  · split
    · exact ⟨by omega, by omega, fun _ => by omega⟩
    · -- a tie: the even one of the two
      rcases Nat.mod_two_eq_zero_or_one q with heven | hodd
      · rw [heven, Nat.add_zero]
        exact ⟨by omega, by omega, by omega⟩
      · rw [hodd]
        exact ⟨by omega, by omega, by omega⟩

theorem Nearest.le {num den k k' : Nat} (h : Nearest num den k) (h' : Nearest num den k')
    (hden : 0 < den) : k ≤ k' := by
  by_contra hgt
  have hlower := h.lower
  have hupper := h'.upper
  have hmul : (k' + 1) * den ≤ k * den := Nat.mul_le_mul_right den (by omega)
  rw [Nat.add_mul] at hmul
  have hnext : k = k' + 1 := by
    refine Nat.eq_of_mul_eq_mul_right hden ?_
    rw [Nat.add_mul]
    omega
  -- the quotient is half way between the two, but one of them is odd
  subst hnext
  rcases Nat.mod_two_eq_zero_or_one k' with heven | hodd
  · have := h.tie (by omega)
    omega
  · have := h'.tie hodd
    omega

/-- There is one such integer. -/
theorem Nearest.roundHalfEven_eq {num den k : Nat} (h : Nearest num den k) (hden : 0 < den) :
    roundHalfEven num den = k :=
  Nat.le_antisymm ((nearest_roundHalfEven hden).le h hden) (h.le (nearest_roundHalfEven hden) hden)

/-- A binade is counted in units of the last place of its numbers. -/
theorem two_pow_add_mul (e k den : Nat) : 2 ^ (e + k) * den = 2 ^ k * (den * 2 ^ e) := by
  rw [Nat.pow_add, Nat.mul_comm (2 ^ e), Nat.mul_assoc, Nat.mul_comm (2 ^ e)]

/-- The exponent that a quotient is rounded with is that of its binade. -/
theorem log2_div_sub_eq_iff {num den e : Nat} (hden : 0 < den) :
    Nat.log2 (num / den) - 52 = e ↔
      num < 2 ^ 53 * (den * 2 ^ e) ∧ (e = 0 ∨ 2 ^ 52 * (den * 2 ^ e) ≤ num) := by
  rw [← two_pow_add_mul, ← two_pow_add_mul, ← Nat.div_lt_iff_lt_mul hden,
    ← Nat.le_div_iff_mul_le hden]
  by_cases hzero : num / den = 0
  · have h₁ := Nat.two_pow_pos (e + 52)
    have h₂ := Nat.two_pow_pos (e + 53)
    rw [hzero, show Nat.log2 0 = 0 from rfl]
    omega
  · rw [← Nat.log2_lt hzero, ← Nat.le_log2 hzero]
    omega

/-- The number that a quotient is rounded to, given the exponent and the significand. -/
theorem ofRatio_eq {num den e k : Nat} {x : Binary64} (hx : x.isFinite = true)
    (he : Nat.log2 (num * 2 ^ 1074 / den) - 52 = e)
    (hk : roundHalfEven (num * 2 ^ 1074) (den * 2 ^ e) = k)
    (hmagnitude : e * 2 ^ 52 + k = x.magnitude.val) : ofRatio x.negative num den = x := by
  have hlt : x.magnitude.val < infinite := isFinite_iff.1 hx
  simp only [ofRatio, he, hk, hmagnitude, Nat.min_eq_left hlt.le]

/-- In its own binade a number takes the quotients that are nearest to it. -/
theorem ofRatio_of_nearest {num den : Nat} {x : Binary64} (hx : x.isFinite = true) (hden : 0 < den)
    (hnearest : Nearest (num * 2 ^ 1074) (den * 2 ^ x.exponent) x.significand)
    (hbinade : x.exponent = 0 ∨ 2 ^ 52 * (den * 2 ^ x.exponent) ≤ num * 2 ^ 1074) :
    ofRatio x.negative num den = x := by
  have hlt := x.significand_lt
  have hunit : 0 < den * 2 ^ x.exponent := Nat.mul_pos hden (Nat.two_pow_pos _)
  have hmul : x.significand * (den * 2 ^ x.exponent) ≤ (2 ^ 53 - 1) * (den * 2 ^ x.exponent) :=
    Nat.mul_le_mul_right _ (by omega)
  have hupper := hnearest.upper
  exact ofRatio_eq hx ((log2_div_sub_eq_iff hden).2 ⟨by omega, hbinade⟩)
    (hnearest.roundHalfEven_eq hunit) x.magnitude_eq.symm

/-- A power of two also takes the quotients just below it, where the numbers lie twice as close. -/
theorem ofRatio_of_lt_power {num den : Nat} {x : Binary64} (hx : x.isFinite = true) (hden : 0 < den)
    (hpower : x.significand = 2 ^ 52) (hexponent : x.exponent ≠ 0)
    (hbelow : num * 2 ^ 1074 < 2 ^ 52 * (den * 2 ^ x.exponent))
    (hclose : 4 * (2 ^ 52 * (den * 2 ^ x.exponent)) ≤ 4 * (num * 2 ^ 1074) + den * 2 ^ x.exponent) :
    ofRatio x.negative num den = x := by
  obtain ⟨e, he⟩ := Nat.exists_eq_succ_of_ne_zero hexponent
  have hdouble : den * 2 ^ x.exponent = 2 * (den * 2 ^ e) := by
    rw [he, Nat.pow_succ, ← Nat.mul_assoc, Nat.mul_comm]
  have hunit : 0 < den * 2 ^ e := Nat.mul_pos hden (Nat.two_pow_pos e)
  rw [hdouble] at hbelow hclose
  have hnearest : Nearest (num * 2 ^ 1074) (den * 2 ^ e) (2 ^ 53) :=
    ⟨by omega, by omega, by omega⟩
  refine ofRatio_eq hx ((log2_div_sub_eq_iff hden).2 ⟨by omega, Or.inr (by omega)⟩)
    (hnearest.roundHalfEven_eq hunit) ?_
  -- the carry out of the rounding moves into the exponent
  rw [x.magnitude_eq, hpower, he]
  omega

/-! ## Quotients that are too large -/

/-- The significand fills the binade, and may also reach the next one. -/
theorem Nearest.bounds {num den k : Nat} (h : Nearest num den k) (hden : 0 < den)
    (hlt : num < 2 ^ 53 * den) : k ≤ 2 ^ 53 ∧ (2 ^ 52 * den ≤ num → 2 ^ 52 ≤ k) := by
  obtain ⟨hlower, hupper, -⟩ := h
  constructor
  · by_contra hgt
    have hmul : (2 ^ 53 + 1) * den ≤ k * den := Nat.mul_le_mul_right den (by omega)
    omega
  · intro hle
    by_contra hgt
    have hmul : k * den ≤ (2 ^ 52 - 1) * den := Nat.mul_le_mul_right den (by omega)
    omega

/-- Only the quotients in the upper half of the last gap are rounded up to the next binade. -/
theorem Nearest.lt_iff {num den k : Nat} (h : Nearest num den k) (hden : 0 < den) :
    k < 2 ^ 53 ↔ 2 * num < (2 ^ 54 - 1) * den := by
  obtain ⟨hlower, hupper, htie⟩ := h
  constructor
  · intro hlt
    rcases Nat.lt_or_eq_of_le (Nat.le_sub_one_of_lt hlt) with hlt | rfl
    · have hmul : k * den ≤ (2 ^ 53 - 2) * den := Nat.mul_le_mul_right den (by omega)
      omega
    · -- the last significand is odd, so the midpoint goes to the next binade
      have hmidpoint : 2 * ((2 ^ 53 - 1) * den) + den = (2 ^ 54 - 1) * den := by omega
      obtain ⟨-, hne⟩ := htie (by omega)
      rw [hmidpoint] at hupper hne
      exact Nat.lt_of_le_of_ne hupper hne
  · intro hbelow
    by_contra hge
    have hmul : 2 ^ 53 * den ≤ k * den := Nat.mul_le_mul_right den (by omega)
    omega

/-- In a later binade the units are at least twice as large. -/
theorem two_mul_unit_le (den : Nat) {i j : Nat} (h : i < j) : 2 * (den * 2 ^ i) ≤ den * 2 ^ j := by
  rw [← Nat.mul_left_comm, ← Nat.pow_succ']
  exact Nat.mul_le_mul_left den (Nat.pow_le_pow_right (by decide) h)

/-- The midpoint between the largest number and the next power of two, in units of the last
    place. -/
theorem scaled_lt_iff {num den : Nat} :
    2 * (num * 2 ^ 1074) < (2 ^ 54 - 1) * (den * 2 ^ 2045) ↔
      num < (2 ^ 54 - 1) * 2 ^ 970 * den := by
  have hsplit : 2 ^ 2045 = 2 ^ 970 * (2 * 2 ^ 1074) := by
    rw [← pow_succ', ← pow_add]
  have hscale : (2 ^ 54 - 1) * (den * 2 ^ 2045) =
      (2 ^ 54 - 1) * 2 ^ 970 * den * (2 * 2 ^ 1074) := by
    rw [hsplit, ← Nat.mul_assoc den, Nat.mul_comm den, ← Nat.mul_assoc (2 ^ 54 - 1),
      ← Nat.mul_assoc (2 ^ 54 - 1)]
  have hpos : ∀ k, 0 < 2 * 2 ^ k := fun k => Nat.mul_pos Nat.two_pos (Nat.two_pow_pos k)
  rw [hscale, Nat.mul_left_comm]
  exact Nat.mul_lt_mul_right (hpos 1074)

/-- **A quotient is rounded to a finite number if and only if it is less than the midpoint between
    the largest number and the next power of two.** -/
theorem isFinite_ofRatio_iff (negative : Bool) {num den : Nat} (hden : 0 < den) :
    (ofRatio negative num den).isFinite = true ↔ num < (2 ^ 54 - 1) * 2 ^ 970 * den := by
  rw [← scaled_lt_iff]
  have hfinite : (ofRatio negative num den).isFinite = true ↔
      (Nat.log2 (num * 2 ^ 1074 / den) - 52) * 2 ^ 52 +
        roundHalfEven (num * 2 ^ 1074) (den * 2 ^ (Nat.log2 (num * 2 ^ 1074 / den) - 52)) <
          2047 * 2 ^ 52 := by
    rw [isFinite_iff, ofRatio]
    simp only [infinite]
    omega
  rw [hfinite]
  generalize num * 2 ^ 1074 = scaled
  generalize he : Nat.log2 (scaled / den) - 52 = e
  obtain ⟨hlt, hle⟩ := (log2_div_sub_eq_iff hden).1 he
  have hunit : 0 < den * 2 ^ e := Nat.mul_pos hden (Nat.two_pow_pos e)
  have hnearest : Nearest scaled (den * 2 ^ e) (roundHalfEven scaled (den * 2 ^ e)) :=
    nearest_roundHalfEven hunit
  generalize roundHalfEven scaled (den * 2 ^ e) = k at *
  obtain ⟨hk, hk'⟩ := hnearest.bounds hunit hlt
  rcases Nat.lt_trichotomy e 2045 with hbelow | rfl | habove
  · have hdouble := two_mul_unit_le den hbelow
    generalize den * 2 ^ 2045 = last at *
    omega
  · rw [← hnearest.lt_iff hunit]
    omega
  · have hdouble := two_mul_unit_le den habove
    generalize den * 2 ^ 2045 = last at *
    omega

/-- What is not rounded to a finite number is rounded to an infinity. -/
theorem magnitude_ofRatio_eq_infinite_iff {negative : Bool} {num den : Nat} :
    (ofRatio negative num den).magnitude.val = infinite ↔
      ¬ (ofRatio negative num den).isFinite = true := by
  have hle : (ofRatio negative num den).magnitude.val ≤ infinite := Nat.min_le_right _ _
  rw [isFinite_iff, Nat.not_lt, Nat.le_antisymm_iff, and_iff_right hle]

/-! ## Between the midpoints -/

theorem inOrder_iff {x : Binary64} {a b : Nat} :
    x.inOrder a b = true ↔ a ≤ b ∧ (x.significand % 2 = 1 → a ≠ b) := by
  unfold inOrder
  split
  · next h => simp [h]
  · next h =>
      simp only [decide_eq_true_eq]
      omega

theorem inOrder_of_lt {x : Binary64} {a b : Nat} (h : a < b) : x.inOrder a b = true :=
  inOrder_iff.2 ⟨h.le, fun _ => h.ne⟩

/-- The quotient lies between the midpoints around the number; the midpoints count if its
    significand is even. -/
structure RoundsTo (num den : Nat) (x : Binary64) : Prop where
  lower : x.inOrder (x.lowerEnd * den) (num * 2 ^ 1076) = true
  upper : x.inOrder (num * 2 ^ 1076) (x.upperEnd * den) = true

/-- The midpoints are counted in quarters of the smallest unit. -/
theorem mul_quarters (n : Nat) : n * 2 ^ 1076 = 4 * (n * 2 ^ 1074) := by
  rw [pow_add 2 1074 2, ← Nat.mul_assoc, Nat.mul_comm, show 2 ^ 2 = 4 from rfl]

theorem upperEnd_mul (x : Binary64) (den : Nat) :
    x.upperEnd * den =
      4 * (x.significand * (den * 2 ^ x.exponent)) + 2 * (den * 2 ^ x.exponent) := by
  rw [upperEnd]
  ring

theorem lowerEnd_mul (x : Binary64) (den : Nat) :
    x.lowerEnd * den =
      4 * (x.significand * (den * 2 ^ x.exponent)) -
        (if x.significand = 2 ^ 52 ∧ 0 < x.exponent then 1 else 2) * (den * 2 ^ x.exponent) := by
  rw [lowerEnd, Nat.mul_assoc, Nat.mul_comm (2 ^ x.exponent), Nat.sub_mul, Nat.mul_assoc 4]

theorem RoundsTo.nearest {num den : Nat} {x : Binary64} (h : RoundsTo num den x) :
    Nearest (num * 2 ^ 1074) (den * 2 ^ x.exponent) x.significand := by
  obtain ⟨hlower, hupper⟩ := h
  rw [inOrder_iff, mul_quarters, upperEnd_mul] at hupper
  rw [inOrder_iff, mul_quarters, lowerEnd_mul] at hlower
  obtain ⟨hle, htie⟩ := hlower
  obtain ⟨hle', htie'⟩ := hupper
  split at hle
  · next hpower =>
      -- the significand of a power of two is even
      exact ⟨by omega, by omega, fun hodd => absurd hpower.1 (by omega)⟩
  · next hgap =>
      rw [if_neg hgap] at htie
      refine ⟨by omega, by omega, fun hodd => ?_⟩
      have hne := htie hodd
      have hne' := htie' hodd
      omega

/-- **A quotient between the midpoints around a finite number is rounded to it.** -/
theorem ofRatio_of_roundsTo {num den : Nat} {x : Binary64} (hx : x.isFinite = true)
    (hden : 0 < den) (h : RoundsTo num den x) : ofRatio x.negative num den = x := by
  by_cases hbinade : x.exponent = 0 ∨ 2 ^ 52 * (den * 2 ^ x.exponent) ≤ num * 2 ^ 1074
  · exact ofRatio_of_nearest hx hden h.nearest hbinade
  · -- below the binade of a number there is only its own power of two
    obtain ⟨hexponent, hbelow⟩ := not_or.1 hbinade
    have hle := x.exponent_eq_zero_or_le.resolve_left hexponent
    have hpower : x.significand = 2 ^ 52 := by
      by_contra hne
      have hmul : (2 ^ 52 + 1) * (den * 2 ^ x.exponent) ≤
          x.significand * (den * 2 ^ x.exponent) := Nat.mul_le_mul_right _ (by omega)
      have hlower := h.nearest.lower
      omega
    have hclose := (inOrder_iff.1 h.lower).1
    rw [mul_quarters, lowerEnd_mul, if_pos ⟨hpower, Nat.pos_of_ne_zero hexponent⟩, hpower] at hclose
    exact ofRatio_of_lt_power hx hden hpower hexponent (by omega) (by omega)

/-! ## Decimals that read back -/

theorem four_units_lt_upperEnd (x : Binary64) : 4 * x.units < x.upperEnd := by
  have hpos := Nat.two_pow_pos x.exponent
  rw [units, upperEnd, Nat.add_mul, Nat.mul_assoc]
  omega

theorem lowerEnd_inOrder_four_units (x : Binary64) : x.inOrder x.lowerEnd (4 * x.units) = true := by
  have hpos := Nat.two_pow_pos x.exponent
  rw [inOrder_iff, units, lowerEnd, ← Nat.mul_assoc]
  refine ⟨Nat.mul_le_mul_right _ (Nat.sub_le _ _), fun hodd => ?_⟩
  have hlt : 4 * x.significand - (if x.significand = 2 ^ 52 ∧ 0 < x.exponent then 1 else 2) <
      4 * x.significand := by
    split <;> omega
  exact ((Nat.mul_lt_mul_right hpos).2 hlt).ne

/-- A number reads back from a quotient that equals it. -/
theorem roundsTo_exact {num den : Nat} {x : Binary64} (hden : 0 < den)
    (h : num * 2 ^ 1074 = x.units * den) : RoundsTo num den x := by
  have hvalue : num * 2 ^ 1076 = 4 * x.units * den := by
    rw [mul_quarters, h, Nat.mul_assoc]
  have hlower := inOrder_iff.1 x.lowerEnd_inOrder_four_units
  constructor
  · rw [inOrder_iff, hvalue]
    exact ⟨Nat.mul_le_mul_right den hlower.1, fun hodd heq =>
      hlower.2 hodd (Nat.eq_of_mul_eq_mul_right hden heq)⟩
  · rw [hvalue]
    exact inOrder_of_lt ((Nat.mul_lt_mul_right hden).2 x.four_units_lt_upperEnd)

/-- A number reads back from the multiple of `10 ^ -places` that was found for it. -/
theorem roundsTo_of_nearest? {x : Binary64} {places n : Nat} (h : x.nearest? places = some n) :
    RoundsTo n (10 ^ places) x := by
  have hscale : 0 < 10 ^ places := Nat.pow_pos (by decide)
  have hlower := inOrder_iff.1 x.lowerEnd_inOrder_four_units
  have hstart := Nat.mul_le_mul_right (10 ^ places) hlower.1
  have hend := (Nat.mul_lt_mul_right hscale).2 x.four_units_lt_upperEnd
  have hbelow := Nat.div_mul_le_self (4 * x.units * 10 ^ places) (2 ^ 1076)
  have habove := Nat.lt_div_mul_add (a := 4 * x.units * 10 ^ places) (Nat.two_pow_pos 1076)
  simp only [nearest?] at h
  split at h
  · next hreads =>
      obtain rfl := Option.some.inj h
      exact ⟨(Bool.and_eq_true _ _ ▸ hreads).1, inOrder_of_lt (Nat.lt_of_le_of_lt hbelow hend)⟩
  · split at h
    · next hreads =>
        obtain rfl := Option.some.inj h
        refine ⟨inOrder_of_lt (Nat.lt_of_le_of_lt hstart ?_), hreads⟩
        rwa [Nat.add_mul, Nat.one_mul]
    · exact absurd h (by simp)

/-- With 1074 places every number is exact. -/
theorem roundsTo_fallback (x : Binary64) :
    RoundsTo (x.units * 10 ^ 1074 / 2 ^ 1074) (10 ^ 1074) x := by
  have hdvd : ∀ k, 2 ^ k ∣ x.units * 10 ^ k := fun k =>
    Nat.dvd_mul_left_of_dvd (pow_dvd_pow_of_dvd (by decide) k) x.units
  have hpos : ∀ k, 0 < 10 ^ k := fun k => Nat.pow_pos (Nat.succ_pos 9)
  exact roundsTo_exact (hpos 1074) (Nat.div_mul_cancel (hdvd 1074))

/-- A number without a fraction is exact with one place. -/
theorem roundsTo_integral {x : Binary64} (h : x.isIntegral = true) :
    RoundsTo (10 * (x.units / 2 ^ 1074)) (10 ^ 1) x := by
  have hdvd : 2 ^ 1074 ∣ x.units := Nat.dvd_of_mod_eq_zero (of_decide_eq_true h)
  refine roundsTo_exact (by decide) ?_
  rw [Nat.mul_assoc, Nat.div_mul_cancel hdvd, Nat.mul_comm, Nat.pow_one]

/-- **The number is the one nearest to what is written for it**, and at least one place is
    written. -/
theorem places_spec (x : Binary64) :
    0 < x.places.1 ∧ RoundsTo x.places.2 (10 ^ x.places.1) x := by
  rw [places]
  split
  · next hintegral =>
      exact ⟨Nat.one_pos, roundsTo_integral hintegral⟩
  · cases hfound : (List.range 1074).findSome? fun k => (x.nearest? (k + 1)).map (k + 1, ·) with
    | some found =>
        obtain ⟨k, -, hk⟩ := List.exists_of_findSome?_eq_some hfound
        obtain ⟨n, hn, rfl⟩ := Option.map_eq_some_iff.1 hk
        exact ⟨Nat.succ_pos k, roundsTo_of_nearest? hn⟩
    | none =>
        simp only [Option.getD_none]
        exact ⟨Nat.succ_pos 1073, x.roundsTo_fallback⟩

/-! ## The text of a finite number -/

theorem isNaN_eq_false_of_isFinite {x : Binary64} (h : x.isFinite = true) : x.isNaN = false :=
  decide_eq_false (Nat.not_lt.2 (isFinite_iff.1 h).le)

/-- **The text of a finite number is a decimal that is rounded to the number.** -/
theorem render_denotes {x : Binary64} (h : x.isFinite = true) :
    ∃ f, DenotesFraction x.render f ∧ ofFraction f = x := by
  obtain ⟨hplaces, hreads⟩ := x.places_spec
  refine ⟨⟨x.negative, x.places.2, x.places.1⟩, ?_,
    ofRatio_of_roundsTo h (Nat.pow_pos (Nat.succ_pos 9)) hreads⟩
  simp only [render, isNaN_eq_false_of_isFinite h, h, Bool.false_eq_true, if_false, if_true]
  cases x.negative with
  | false => exact denotesFraction_positional .none hplaces _
  | true => exact denotesFraction_positional .minus hplaces _

end Restconf.Binary64
