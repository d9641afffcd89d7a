import Restconf.Text.Percent

set_option autoImplicit false

/-! # Quoted key values

A key value may stand in single or double quotes, so that it can hold commas. Inside, a backslash
comes before every quote of the same kind and before every backslash; percent escapes go on top
of that. -/

namespace Restconf

/-- The character that opens and closes a quoted key value. -/
inductive QuoteMark where
  | single
  | double
  deriving Repr, DecidableEq

namespace QuoteMark

/-- The character of a quote mark. -/
def char : QuoteMark → Char
  | single => '\''
  | double => '\x22'

/-- The quote mark that a character is. -/
def ofChar? (c : Char) : Option QuoteMark :=
  if c = '\'' then some single else if c = '\x22' then some double else none

theorem ofChar?_eq_some_iff {c : Char} {q : QuoteMark} : ofChar? c = some q ↔ c = q.char := by
  constructor
  · intro h
    unfold ofChar? at h
    split at h
    · next hc => cases h; exact hc
    · split at h
      · next hc => cases h; exact hc
      · simp at h
  · rintro rfl
    cases q <;> rfl

/-- One character between quotes, before percent encoding. -/
def guardChar (q : QuoteMark) (c : Char) : List Char :=
  if c = q.char ∨ c = '\\' then ['\\', c] else [c]

/-- The text in quotes. -/
def write (q : QuoteMark) (text : List Char) : List Char :=
  q.char :: Text.Percent.encode .quotedKey (text.flatMap q.guardChar) ++ [q.char]

end QuoteMark

/-- The text would be read as a quoted one. -/
def opensQuoted : List Char → Bool
  | [] => false
  | c :: _ => (QuoteMark.ofChar? c).isSome

end Restconf
