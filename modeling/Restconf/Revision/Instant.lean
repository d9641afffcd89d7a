import Restconf.Calendar

set_option autoImplicit false

/-! # Instants

Times of modification, in seconds since the start of 1970 in UTC, and their text in HTTP headers. A
leap second is told from the second before it by a billion nanoseconds or more. -/

namespace Restconf

/-- A point in time. -/
structure Instant where
  seconds : Int
  /-- The part of the second that has passed; a billion or more in a leap second. -/
  nanos : Nat
  deriving Repr, DecidableEq

namespace Instant

/-- The instant at the start of a second. -/
def ofSeconds (seconds : Int) : Instant :=
  ⟨seconds, 0⟩

/-- The one instant is not after the other. -/
def le (a b : Instant) : Prop :=
  a.seconds < b.seconds ∨ a.seconds = b.seconds ∧ a.nanos ≤ b.nanos

instance : LE Instant := ⟨le⟩

instance (a b : Instant) : Decidable (a ≤ b) :=
  inferInstanceAs (Decidable (_ ∨ _))

/-! ## Text -/

/-- The days of the week, from the one that 1970 started with. -/
def weekdays : List String :=
  ["Thu", "Fri", "Sat", "Sun", "Mon", "Tue", "Wed"]

/-- The months of the year. -/
def months : List String :=
  ["Jan", "Feb", "Mar", "Apr", "May", "Jun", "Jul", "Aug", "Sep", "Oct", "Nov", "Dec"]

/-- The text of an instant in a header such as `Last-Modified`. -/
def httpDate (t : Instant) : String :=
  let days := t.seconds.fdiv 86400
  let second := (t.seconds.fmod 86400).toNat
  let (year, month, day) := Calendar.ofDays days
  let weekday := weekdays.getD (days.fmod 7).toNat ""
  let padded (n : Nat) := String.ofList (Decimal.padded 2 n)
  let last := second % 60 + t.nanos / 1000000000
  weekday ++ ", " ++ padded day ++ " " ++ months.getD (month - 1) "" ++ " " ++
    String.ofList (Calendar.renderYear year) ++ " " ++ padded (second / 3600) ++ ":" ++
    padded (second / 60 % 60) ++ ":" ++ padded last ++ " GMT"

end Instant

end Restconf
