import Mathlib.Data.List.Induction
import Mathlib.Data.Nat.Digits.Defs
import Restconf.Decimal.Numeral
import Restconf.Text.Case

set_option autoImplicit false

/-! # What numerals denote

A numeral is read if and only if it has the form of one, and then as the number that its digits
denote, of whatever length and with whatever zeros in front (`integer?_eq_some_iff`,
`fraction?_eq_some_iff`). No text has both forms, and neither form has letters, so numerals are no
words. What is written for a fraction has its form and denotes it (`denotesFraction_positional`). -/

namespace Restconf.Decimal

open Text

/-! ## The forms of numerals -/

/-- What may stand in front of the digits, and whether the number is negative then. -/
inductive Sign : List Char → Bool → Prop
  | none : Sign [] false
  | plus : Sign ['+'] false
  | minus : Sign ['-'] true

/-- The characters are digits. -/
def AllDigits (cs : List Char) : Prop :=
  ∀ c ∈ cs, '0' ≤ c ∧ c ≤ '9'

/-- The number that digits denote: the last one counts for itself, and each one before it for ten
    times as much as the next. -/
def placeValue (digits : List Char) : Nat :=
  Nat.ofDigits 10 (digits.reverse.map fun c => c.toNat - '0'.toNat)

/-- The text is `[+-]?[0-9]+` and denotes the integer. -/
def DenotesInteger (cs : List Char) (n : Int) : Prop :=
  ∃ sign negative digits, cs = sign ++ digits ∧ Sign sign negative ∧
    digits ≠ [] ∧ AllDigits digits ∧
    n = if negative then -(placeValue digits : Int) else (placeValue digits : Int)

/-- The text is `[+-]?[0-9]*[.][0-9]+` and denotes the fraction. -/
def DenotesFraction (cs : List Char) (f : Fraction) : Prop :=
  ∃ sign whole frac, cs = sign ++ whole ++ '.' :: frac ∧ Sign sign f.negative ∧
    AllDigits whole ∧ frac ≠ [] ∧ AllDigits frac ∧
    f.digits = placeValue (whole ++ frac) ∧ f.places = frac.length

/-! ## Digits -/

theorem valueOf_eq_placeValue (digits : List Char) : valueOf digits = placeValue digits := by
  induction digits using List.reverseRecOn with
  | nil => rfl
  | append_singleton digits c ih =>
      rw [valueOf] at ih
      rw [valueOf, Nat.ofDigitChars_append, ih, Nat.ofDigitChars_cons, Nat.ofDigitChars_nil,
        placeValue, placeValue, List.reverse_concat, List.map_cons, Nat.ofDigits_cons]
      exact Nat.add_comm _ _

/-- Digits count by how many follow them. -/
theorem valueOf_append (digits rest : List Char) :
    valueOf (digits ++ rest) = 10 ^ rest.length * valueOf digits + valueOf rest := by
  rw [valueOf, Nat.ofDigitChars_append, Nat.ofDigitChars_eq_ofDigitChars_zero]
  rfl

theorem all_isDigit_iff {cs : List Char} : cs.all Char.isDigit = true ↔ AllDigits cs := by
  simp only [List.all_eq_true, isDigit_iff, AllDigits]

theorem isDigits_iff {cs : List Char} : isDigits cs = true ↔ cs ≠ [] ∧ AllDigits cs := by
  simp [isDigits, ← all_isDigit_iff]

theorem AllDigits.not_mem {cs : List Char} (h : AllDigits cs) {c : Char}
    (hc : c.isDigit = false) : c ∉ cs := by
  intro hmem
  rw [isDigit_iff.2 (h c hmem)] at hc
  exact absurd hc (by simp)

/-! ## Signs -/

theorem exists_sign (cs : List Char) :
    ∃ sign, Sign sign (splitSign cs).1 ∧ cs = sign ++ (splitSign cs).2 := by
  unfold splitSign
  split
  · exact ⟨_, .plus, rfl⟩
  · exact ⟨_, .minus, rfl⟩
  · exact ⟨_, .none, rfl⟩

/-- A sign is split off from what does not open with one. -/
theorem splitSign_append {sign rest : List Char} {negative : Bool} (h : Sign sign negative)
    (hrest : ∀ c, rest.head? = some c → c ≠ '+' ∧ c ≠ '-') :
    splitSign (sign ++ rest) = (negative, rest) := by
  cases h with
  | plus => rfl
  | minus => rfl
  | none =>
      rw [List.nil_append, splitSign.eq_def]
      split
      · exact absurd rfl (hrest _ rfl).1
      · exact absurd rfl (hrest _ rfl).2
      · rfl

theorem Sign.not_mem {sign : List Char} {negative : Bool} (h : Sign sign negative) {c : Char}
    (hc : c ≠ '+' ∧ c ≠ '-') : c ∉ sign := by
  cases h with
  | none => exact List.not_mem_nil
  | plus => simpa using hc.1
  | minus => simpa using hc.2

/-- Digits, and a point after them, open with no sign. -/
theorem AllDigits.head_ne_sign {digits : List Char} (h : AllDigits digits) (rest : List Char)
    (hrest : ∀ c, rest.head? = some c → c ≠ '+' ∧ c ≠ '-') :
    ∀ c, (digits ++ rest).head? = some c → c ≠ '+' ∧ c ≠ '-' := by
  intro c hc
  cases digits with
  | nil => exact hrest c hc
  | cons d digits =>
      obtain rfl : d = c := Option.some.inj hc
      have hd := isDigit_iff.2 (h d List.mem_cons_self)
      constructor
      · rintro rfl
        exact absurd hd (by decide)
      · rintro rfl
        exact absurd hd (by decide)

/-! ## Reading -/

/-- **An integer is read from the texts that have its form, as what they denote.** -/
theorem integer?_eq_some_iff {cs : List Char} {n : Int} :
    integer? cs = some n ↔ DenotesInteger cs n := by
  constructor
  · intro h
    obtain ⟨sign, hsign, hcs⟩ := exists_sign cs
    rw [integer?] at h
    simp only at h
    split at h
    · next hdigits =>
        obtain ⟨hne, hall⟩ := isDigits_iff.1 hdigits
        refine ⟨sign, _, _, hcs, hsign, hne, hall, ?_⟩
        rw [← valueOf_eq_placeValue]
        exact (Option.some.inj h).symm
    · exact absurd h (by simp)
  · rintro ⟨sign, negative, digits, rfl, hsign, hne, hall, rfl⟩
    have hhead := hall.head_ne_sign [] (by simp)
    rw [List.append_nil] at hhead
    simp only [integer?, splitSign_append hsign hhead, isDigits_iff.2 ⟨hne, hall⟩, if_true,
      valueOf_eq_placeValue]

/-- **A fraction is read from the texts that have its form, as what they denote.** -/
theorem fraction?_eq_some_iff {cs : List Char} {f : Fraction} :
    fraction? cs = some f ↔ DenotesFraction cs f := by
  constructor
  · intro h
    obtain ⟨sign, hsign, hcs⟩ := exists_sign cs
    rw [fraction?] at h
    simp only at h
    split at h
    · next whole frac hcut =>
        split at h
        · next hdigits =>
            rw [Bool.and_eq_true, all_isDigit_iff, isDigits_iff] at hdigits
            obtain ⟨hwhole, hne, hfrac⟩ := hdigits
            rw [(cut?_eq_some_iff.1 hcut).1, ← List.append_assoc] at hcs
            rw [← Option.some.inj h]
            exact ⟨sign, whole, frac, hcs, hsign, hwhole, hne, hfrac, valueOf_eq_placeValue _, rfl⟩
        · exact absurd h (by simp)
    · exact absurd h (by simp)
  · obtain ⟨negative, digits, places⟩ := f
    rintro ⟨sign, whole, frac, rfl, hsign, hwhole, hne, hfrac, rfl, rfl⟩
    have hhead := hwhole.head_ne_sign ('.' :: frac) (by simp)
    have hcut : cut? '.' (whole ++ '.' :: frac) = some (whole, frac) :=
      cut?_eq_some_iff.2 ⟨rfl, hwhole.not_mem (by decide)⟩
    have hdigits : (whole.all Char.isDigit && isDigits frac) = true := by
      rw [Bool.and_eq_true, all_isDigit_iff, isDigits_iff]
      exact ⟨hwhole, hne, hfrac⟩
    rw [List.append_assoc, fraction?, splitSign_append hsign hhead]
    simp only [hcut, hdigits, if_true, valueOf_eq_placeValue]

/-! ## What numerals are not -/

theorem ne_of_isAlpha {c : Char} (h : c.isAlpha = true) : c ≠ '+' ∧ c ≠ '-' ∧ c ≠ '.' := by
  refine ⟨?_, ?_, ?_⟩
  all_goals
    rintro rfl
    exact absurd h (by decide)

/-- An integer has no point, and a fraction has one. -/
theorem DenotesInteger.not_denotesFraction {cs : List Char} {n : Int} (h : DenotesInteger cs n)
    (f : Fraction) : ¬ DenotesFraction cs f := by
  rintro ⟨sign', whole, frac, heq, -⟩
  obtain ⟨sign, negative, digits, rfl, hsign, -, hall, -⟩ := h
  have hpoint : '.' ∈ sign ++ digits := by simp [heq]
  rcases List.mem_append.1 hpoint with hpoint | hpoint
  · exact hsign.not_mem (by decide) hpoint
  · exact hall.not_mem (by decide) hpoint

theorem DenotesInteger.not_mem {cs : List Char} {n : Int} (h : DenotesInteger cs n) {c : Char}
    (hc : c.isAlpha = true) : c ∉ cs := by
  have hdigit := not_isDigit_of_isAlpha hc
  obtain ⟨hplus, hminus, -⟩ := ne_of_isAlpha hc
  obtain ⟨sign, negative, digits, rfl, hsign, -, hall, -⟩ := h
  simp [hsign.not_mem ⟨hplus, hminus⟩, hall.not_mem hdigit]

theorem DenotesFraction.not_mem {cs : List Char} {f : Fraction} (h : DenotesFraction cs f)
    {c : Char} (hc : c.isAlpha = true) : c ∉ cs := by
  have hdigit := not_isDigit_of_isAlpha hc
  obtain ⟨hplus, hminus, hpoint⟩ := ne_of_isAlpha hc
  obtain ⟨sign, whole, frac, rfl, hsign, hwhole, -, hfrac, -⟩ := h
  simp [hsign.not_mem ⟨hplus, hminus⟩, hwhole.not_mem hdigit, hfrac.not_mem hdigit, hpoint]

/-! ## Padded numerals -/

theorem padded_eq (width n : Nat) :
    padded width n = List.replicate (width - (renderNat n).length) '0' ++ renderNat n :=
  rfl

/-- Zeros in front do not count. -/
theorem valueOf_padded (width n : Nat) : valueOf (padded width n) = n := by
  have hzeros : ∀ k, Nat.ofDigitChars 10 (List.replicate k '0') 0 = 0 := by
    intro k
    induction k with
    | zero => rfl
    | succ k ih => rw [List.replicate_succ, Nat.ofDigitChars_cons, show '0'.toNat - '0'.toNat = 0
        from rfl, ih]
  rw [padded_eq, valueOf, Nat.ofDigitChars_append, hzeros]
  exact valueOf_renderNat n

theorem isDigit_of_mem_padded {width n : Nat} {c : Char} (h : c ∈ padded width n) :
    c.isDigit = true := by
  rw [padded_eq, List.mem_append] at h
  rcases h with h | h
  · rw [List.eq_of_mem_replicate h]
    decide
  · exact Nat.isDigit_of_mem_toDigits (by decide) (by decide) h

theorem padded_ne_nil (width n : Nat) : padded width n ≠ [] := by
  have hdigits : renderNat n ≠ [] := Nat.toDigits_ne_nil
  rw [padded_eq]
  simp [hdigits]

/-- A numeral that fits is padded to the width. -/
theorem length_padded {width n : Nat} (h : (renderNat n).length ≤ width) :
    (padded width n).length = width := by
  rw [padded_eq, List.length_append, List.length_replicate]
  omega

theorem length_padded_two {n : Nat} (h : n ≤ 99) : (padded 2 n).length = 2 :=
  length_padded ((Nat.length_toDigits_le_iff (by decide) (by decide)).2 (by omega))

theorem length_padded_four {n : Nat} (h : n ≤ 9999) : (padded 4 n).length = 4 :=
  length_padded ((Nat.length_toDigits_le_iff (by decide) (by decide)).2 (by omega))

/-! ## Writing -/

theorem allDigits_renderNat (n : Nat) : AllDigits (renderNat n) :=
  (isDigits_iff.1 (isDigits_renderNat n)).2

theorem allDigits_padded (width n : Nat) : AllDigits (padded width n) :=
  fun _ hc => isDigit_iff.1 (isDigit_of_mem_padded hc)

/-- What is written for a fraction denotes it, whatever sign is in front. -/
theorem denotesFraction_positional {sign : List Char} {negative : Bool} (hsign : Sign sign negative)
    {places : Nat} (hplaces : 0 < places) (n : Nat) :
    DenotesFraction (sign ++ positional places n) ⟨negative, n, places⟩ := by
  have hfits : (renderNat (n % 10 ^ places)).length ≤ places :=
    (Nat.length_toDigits_le_iff (by decide) hplaces).2
      (Nat.mod_lt n (Nat.pow_pos (by decide)))
  refine ⟨sign, renderNat (n / 10 ^ places), padded places (n % 10 ^ places),
    (List.append_assoc ..).symm, hsign, allDigits_renderNat _, padded_ne_nil _ _,
    allDigits_padded _ _, ?_, (length_padded hfits).symm⟩
  rw [← valueOf_eq_placeValue, valueOf_append, length_padded hfits, valueOf_renderNat,
    valueOf_padded]
  exact (Nat.div_add_mod n (10 ^ places)).symm

/-- An integer is written in its shortest decimal form. -/
theorem renderInt_eq (n : Int) : renderInt n = (toString n).toList := by
  cases n with
  | ofNat n =>
      have hneg : ¬ Int.ofNat n < 0 := by simp
      rw [renderInt, if_neg hneg]
      exact String.toList_ofList.symm
  | negSucc n =>
      have hneg : Int.negSucc n < 0 := Int.negSucc_lt_zero n
      rw [renderInt, if_pos hneg, show toString (Int.negSucc n) = "-" ++ toString (n + 1) from rfl,
        String.toList_append]
      exact congrArg ('-' :: ·) String.toList_ofList.symm

end Restconf.Decimal
