import Restconf.Decimal.Numeral
import Restconf.Text.Blank

set_option autoImplicit false

/-! # Calendar dates

Dates of the proleptic Gregorian calendar, with a year zero and negative years before it. A date is
written `YYYY-MM-DD`; a year outside 0 to 9999 has a sign. Reading is more lenient: numbers may be
short, and white space may stand in front of each of them. -/

namespace Restconf

namespace Calendar

/-- The year has a twenty-ninth of February. -/
def isLeapYear (year : Int) : Bool :=
  year % 4 = 0 && (year % 100 ≠ 0 || year % 400 = 0)

/-- The number of days of a month; zero if there is no such month. -/
def daysInMonth (year : Int) (month : Nat) : Nat :=
  match month with
  | 1 | 3 | 5 | 7 | 8 | 10 | 12 => 31
  | 4 | 6 | 9 | 11 => 30
  | 2 => if isLeapYear year then 29 else 28
  | _ => 0

/-- The first year that a date may have. -/
def minYear : Int := -262143

/-- The last year that a date may have. -/
def maxYear : Int := 262142

/-- The year, month and day are those of a date. -/
def isDate (year : Int) (month day : Nat) : Bool :=
  minYear ≤ year && year ≤ maxYear && 1 ≤ day && day ≤ daysInMonth year month

/-- A year in at least four digits, signed outside 0 to 9999. -/
def renderYear (year : Int) : List Char :=
  if 0 ≤ year ∧ year ≤ 9999 then Decimal.padded 4 year.toNat
  else (if year < 0 then '-' else '+') :: Decimal.padded 4 year.natAbs

/-- The year, month and day that lie `days` days after the first of January 1970. Years are counted
    from March, so that a leap day is the last day of its year, in cycles of 400 years. -/
def ofDays (days : Int) : Int × Nat × Nat :=
  let shifted := days + 719468
  let cycle := shifted.fdiv 146097
  let dayOfCycle := (shifted.fmod 146097).toNat
  let yearOfCycle :=
    (dayOfCycle - dayOfCycle / 1460 + dayOfCycle / 36524 - dayOfCycle / 146096) / 365
  let dayOfYear := dayOfCycle - (365 * yearOfCycle + yearOfCycle / 4 - yearOfCycle / 100)
  let monthFromMarch := (5 * dayOfYear + 2) / 153
  let day := dayOfYear - (153 * monthFromMarch + 2) / 5 + 1
  let month := if monthFromMarch < 10 then monthFromMarch + 3 else monthFromMarch - 9
  (cycle * 400 + yearOfCycle + (if month ≤ 2 then 1 else 0), month, day)

end Calendar

/-- A date between the years -262143 and 262142. -/
structure Date where
  year : Int
  month : Nat
  day : Nat
  inCalendar : Calendar.isDate year month day = true
  deriving Repr, DecidableEq

namespace Date

open Calendar Text

/-- The date with a year, month and day, if there is one. -/
def ofParts? (year : Int) (month day : Nat) : Option Date :=
  if h : isDate year month day = true then some ⟨year, month, day, h⟩ else none

/-! ## Writing -/

/-- A date as `YYYY-MM-DD`. -/
def render (d : Date) : List Char :=
  renderYear d.year ++ '-' :: Decimal.padded 2 d.month ++ '-' :: Decimal.padded 2 d.day

instance : ToString Date := ⟨fun d => String.ofList d.render⟩

/-! ## Reading -/

/-- How much white space a date may have. -/
inductive Spacing where
  /-- In front of each number. -/
  | beforeNumbers
  /-- In front of each number and hyphen and at the end. -/
  | everywhere
  deriving Repr, DecidableEq

/-- Skips the white space that may stand in front of a hyphen or at the end. -/
def Spacing.skip : Spacing → List Char → List Char
  | beforeNumbers, cs => cs
  | everywhere, cs => skipBlank cs

/-- Reads a number of at most `width` digits and what follows it. -/
def readNumber (width : Nat) (cs : List Char) : Option (Nat × List Char) :=
  let digits := (cs.take width).takeWhile Char.isDigit
  if digits.isEmpty then none else some (Decimal.valueOf digits, cs.drop digits.length)

/-- Reads a year and what follows it: up to four digits, or any number of them after a sign. -/
def readYear (cs : List Char) : Option (Int × List Char) :=
  match skipBlank cs with
  | '-' :: rest => (readNumber rest.length rest).map fun (n, rest) => (-(n : Int), rest)
  | '+' :: rest => (readNumber rest.length rest).map fun (n, rest) => ((n : Int), rest)
  | cs => (readNumber 4 cs).map fun (n, rest) => ((n : Int), rest)

/-- Reads a hyphen, a number of one or two digits and what follows it. -/
def readPart (spacing : Spacing) (cs : List Char) : Option (Nat × List Char) :=
  match spacing.skip cs with
  | '-' :: rest => readNumber 2 (skipBlank rest)
  | _ => none

/-- Reads a date. -/
def parse? (spacing : Spacing) (text : String) : Option Date :=
  match readYear text.toList with
  | none => none
  | some (year, rest) =>
    match readPart spacing rest with
    | none => none
    | some (month, rest) =>
      match readPart spacing rest with
      | none => none
      | some (day, rest) =>
        if (spacing.skip rest).isEmpty then ofParts? year month day else none

end Date

end Restconf
