import Restconf.Calendar
import Restconf.Proofs.Decimal

set_option autoImplicit false

/-! # Written dates read back

A date is read from its own text, whatever its year and however much white space would be allowed
(`parse?_toString`). An unsigned year is written in exactly the four digits that the reader takes,
and the digits of a signed one end at the hyphen. -/

namespace Restconf

namespace Date

open Calendar Text

/-! ## Reading numbers -/

/-- A number ends after as many digits as it may have, or at what is no digit. -/
theorem readNumber_append {width : Nat} {digits rest : List Char} (hne : digits ≠ [])
    (hdigits : ∀ c ∈ digits, c.isDigit = true) (hwidth : digits.length ≤ width)
    (hend : digits.length = width ∨ ∀ c, rest.head? = some c → c.isDigit = false) :
    readNumber width (digits ++ rest) = some (Decimal.valueOf digits, rest) := by
  have hstop : (rest.take (width - digits.length)).takeWhile Char.isDigit = [] := by
    rcases hend with hfull | hhead
    · rw [hfull, Nat.sub_self]
      rfl
    · cases rest with
      | nil => simp
      | cons c rest =>
          cases width - digits.length with
          | zero => rfl
          | succ k => simp [hhead c rfl]
  have htaken : ((digits ++ rest).take width).takeWhile Char.isDigit = digits := by
    rw [List.take_append, List.take_of_length_le hwidth,
      List.takeWhile_append_of_pos hdigits, hstop, List.append_nil]
  rw [readNumber, htaken]
  simp [hne]

theorem isBlank_eq_false_of_isDigit {c : Char} (h : c.isDigit = true) : isBlank c = false := by
  simp only [Char.isDigit, Bool.and_eq_true, decide_eq_true_eq, ge_iff_le,
    UInt32.le_iff_toNat_le] at h
  change 48 ≤ c.toNat ∧ c.toNat ≤ 57 at h
  simp only [isBlank, blankRanges, List.any_cons, List.any_nil, Bool.or_false, Bool.or_eq_false_iff,
    Bool.and_eq_false_iff, decide_eq_false_iff_not]
  omega

/-- There is nothing to skip in front of digits. -/
theorem skipBlank_of_isDigit {digits : List Char} (hne : digits ≠ [])
    (hdigits : ∀ c ∈ digits, c.isDigit = true) (rest : List Char) :
    skipBlank (digits ++ rest) = digits ++ rest := by
  obtain ⟨c, digits, rfl⟩ := List.exists_cons_of_ne_nil hne
  have hc : isBlank c = false := isBlank_eq_false_of_isDigit (hdigits c List.mem_cons_self)
  rw [skipBlank, List.cons_append, List.dropWhile_cons_of_neg (by simp [hc])]

theorem skip_hyphen (spacing : Spacing) (rest : List Char) :
    spacing.skip ('-' :: rest) = '-' :: rest := by
  cases spacing with
  | beforeNumbers => rfl
  | everywhere =>
      have hhyphen : ¬ isBlank '-' = true := by decide
      exact List.dropWhile_cons_of_neg hhyphen

/-- A month or a day is read in two digits. -/
theorem readPart_padded (spacing : Spacing) {n : Nat} (h : n ≤ 99) (rest : List Char) :
    readPart spacing ('-' :: (Decimal.padded 2 n ++ rest)) = some (n, rest) := by
  have hdigits : ∀ c ∈ Decimal.padded 2 n, c.isDigit = true :=
    fun c hc => Decimal.isDigit_of_mem_padded hc
  have hne := Decimal.padded_ne_nil 2 n
  have hlength := Decimal.length_padded_two h
  rw [readPart, skip_hyphen]
  simp only [skipBlank_of_isDigit hne hdigits]
  rw [readNumber_append hne hdigits (Nat.le_of_eq hlength) (Or.inl hlength),
    Decimal.valueOf_padded]

/-- A year without a sign is read in four digits. -/
theorem readYear_padded {n : Nat} (h : n ≤ 9999) (rest : List Char) :
    readYear (Decimal.padded 4 n ++ rest) = some ((n : Int), rest) := by
  have hdigits : ∀ c ∈ Decimal.padded 4 n, c.isDigit = true :=
    fun c hc => Decimal.isDigit_of_mem_padded hc
  have hne := Decimal.padded_ne_nil 4 n
  have hlength := Decimal.length_padded_four h
  have hread : readNumber 4 (Decimal.padded 4 n ++ rest) = some (n, rest) := by
    rw [readNumber_append hne hdigits (Nat.le_of_eq hlength) (Or.inl hlength),
      Decimal.valueOf_padded]
  have hsign : ∀ sign cs, Decimal.padded 4 n ++ rest = sign :: cs → sign.isDigit = true := by
    intro sign cs hcons
    obtain ⟨c, digits, hpadded⟩ := List.exists_cons_of_ne_nil hne
    rw [hpadded, List.cons_append] at hcons
    exact (List.cons.inj hcons).1 ▸ hdigits c (hpadded ▸ List.mem_cons_self)
  rw [readYear, skipBlank_of_isDigit hne hdigits]
  split
  · next heq => exact absurd (hsign _ _ heq) (by decide)
  · next heq => exact absurd (hsign _ _ heq) (by decide)
  · rw [hread]
    rfl

/-- A year is read with its sign, up to the hyphen after it. -/
theorem readYear_renderYear (year : Int) (rest : List Char) :
    readYear (renderYear year ++ '-' :: rest) = some (year, '-' :: rest) := by
  have hhyphen : ∀ c, ('-' :: rest).head? = some c → c.isDigit = false := by
    intro c hc
    obtain rfl := Option.some.inj hc
    decide
  -- the digits of a signed year may go on as long as the text does
  have hsigned : ∀ n, readNumber (Decimal.padded 4 n ++ '-' :: rest).length
      (Decimal.padded 4 n ++ '-' :: rest) = some (n, '-' :: rest) := by
    intro n
    rw [readNumber_append (Decimal.padded_ne_nil 4 n)
      (fun c hc => Decimal.isDigit_of_mem_padded hc) (by simp) (Or.inr hhyphen),
      Decimal.valueOf_padded]
  have hskip : ∀ sign cs, isBlank sign = false → skipBlank (sign :: cs) = sign :: cs :=
    fun sign cs h => List.dropWhile_cons_of_neg (by simp [h])
  unfold renderYear
  split
  · next hyear =>
      rw [readYear_padded (by omega), Int.toNat_of_nonneg hyear.1]
  · split
    · rw [readYear, List.cons_append, hskip '-' _ (by decide)]
      simp only [hsigned, Option.map_some, Option.some.injEq, Prod.mk.injEq, and_true]
      omega
    · rw [readYear, List.cons_append, hskip '+' _ (by decide)]
      simp only [hsigned, Option.map_some, Option.some.injEq, Prod.mk.injEq, and_true]
      omega

/-! ## Whole dates -/

theorem month_le (d : Date) : d.month ≤ 12 := by
  have hdate := d.inCalendar
  simp only [isDate, Bool.and_eq_true, decide_eq_true_eq] at hdate
  refine Nat.le_of_not_lt fun hmonth => ?_
  have hnone : daysInMonth d.year d.month = 0 := by
    unfold daysInMonth
    split
    all_goals omega
  omega

theorem day_le (d : Date) : d.day ≤ 31 := by
  have hdate := d.inCalendar
  simp only [isDate, Bool.and_eq_true, decide_eq_true_eq] at hdate
  have hmonth : daysInMonth d.year d.month ≤ 31 := by
    unfold daysInMonth
    split
    all_goals try split
    all_goals omega
  omega

/-- **Every date is read from its own text.** -/
theorem parse?_toString (spacing : Spacing) (d : Date) :
    parse? spacing (toString d) = some d := by
  have htext : (toString d).toList = renderYear d.year ++ '-' ::
      (Decimal.padded 2 d.month ++ '-' :: (Decimal.padded 2 d.day ++ [])) := by
    rw [show (toString d).toList = d.render from String.toList_ofList, render]
    simp
  have hmonth := d.month_le
  have hday := d.day_le
  have hempty : (spacing.skip []).isEmpty = true := by
    cases spacing <;> rfl
  rw [parse?, htext, readYear_renderYear]
  simp only [readPart_padded spacing (show d.month ≤ 99 by omega),
    readPart_padded spacing (show d.day ≤ 99 by omega), hempty, if_true]
  rw [ofParts?, dif_pos d.inCalendar]

end Date

end Restconf
