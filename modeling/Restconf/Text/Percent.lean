import Restconf.Text.Hex
import Restconf.Text.Utf8

set_option autoImplicit false

/-! # Percent encoding

An escape `%XX` spells one byte. Writing keeps the printable ASCII characters outside an escape
set and escapes the bytes of every other character, in upper case. Reading refuses a `%` that two
hexadecimal digits do not follow and bytes that are not UTF-8.

Key values tell an escaped comma from a literal one, so besides the plain reader `decode` there is
`decodeWithMarks`, which says of each character whether its first byte was escaped. The two accept
the same texts and read the same characters (`decode_eq_map_char`). -/

namespace Restconf.Text.Percent

/-! ## Escape sets -/

/-- The printable ASCII characters that are escaped in one place of a URL. Controls, DEL and all
    characters beyond ASCII are escaped everywhere. -/
structure EscapeSet where
  /-- The escaped characters between U+0020 and U+007E. -/
  members : List Char
  deriving Repr, DecidableEq

/-- What an unquoted key value escapes. -/
def EscapeSet.key : EscapeSet :=
  ⟨[' ', '#', '%', '&', ',', '/', '?', '[', ']']⟩

/-- What the inside of a quoted key value escapes; a comma is safe there. -/
def EscapeSet.quotedKey : EscapeSet :=
  ⟨[' ', '#', '%', '/', '?']⟩

/-- What the value of a query parameter escapes. -/
def EscapeSet.query : EscapeSet :=
  ⟨[' ', '\x22', '#', '%', '&', '+', '=', '<', '>', '\x60']⟩

/-- The character is written as itself. -/
def EscapeSet.keeps (set : EscapeSet) (c : Char) : Bool :=
  0x20 ≤ c.toNat && c.toNat < 0x7F && !set.members.contains c

/-! ## Writing -/

/-- The escape of one byte. -/
def escapeByte (b : UInt8) : List Char :=
  ['%', Hex.digitUpper (b.toNat / 16), Hex.digitUpper (b.toNat % 16)]

/-- One character, as itself or as the escapes of its UTF-8 bytes. -/
def escapeChar (set : EscapeSet) (c : Char) : List Char :=
  if set.keeps c then [c] else (String.utf8EncodeChar c).flatMap escapeByte

/-- A text with every character outside the kept ones escaped. -/
def encode (set : EscapeSet) (cs : List Char) : List Char :=
  cs.flatMap (escapeChar set)

@[simp] theorem encode_nil (set : EscapeSet) : encode set [] = [] := rfl

@[simp] theorem encode_cons (set : EscapeSet) (c : Char) (cs : List Char) :
    encode set (c :: cs) = escapeChar set c ++ encode set cs := rfl

theorem encode_append (set : EscapeSet) (a b : List Char) :
    encode set (a ++ b) = encode set a ++ encode set b := by
  simp [encode]

/-! ## Reading -/

/-- A byte of escaped text. -/
structure Octet where
  byte : UInt8
  /-- The byte was written as an escape. -/
  escaped : Bool
  deriving Repr, DecidableEq

/-- A character of escaped text. -/
structure Marked where
  char : Char
  /-- The character's first byte was written as an escape. -/
  escaped : Bool
  deriving Repr, DecidableEq

/-- The bytes that a text spells, escapes replaced by their byte; none if an escape is
    malformed. -/
def octets? : List Char → Option (List Octet)
  | [] => some []
  | c :: rest =>
    if c = '%' then
      match rest with
      | hi :: lo :: rest' =>
        match Hex.value? hi, Hex.value? lo with
        | some x, some y => (octets? rest').map (⟨UInt8.ofNat (16 * x + y), true⟩ :: ·)
        | _, _ => none
      | _ => none
    else
      (octets? rest).map ((String.utf8EncodeChar c).map (⟨·, false⟩) ++ ·)

/-- The text without its escapes. -/
def decode (cs : List Char) : Option (List Char) :=
  (octets? cs).bind fun os => Utf8.decode (os.map Octet.byte)

/-- The text without its escapes, each character with its mark. -/
def decodeWithMarks (cs : List Char) : Option (List Marked) :=
  (octets? cs).bind fun os =>
    (Utf8.decodeBy Octet.byte os).map (·.map fun (c, first) => ⟨c, first.escaped⟩)

/-- The two readers agree on what they accept and on the characters. -/
theorem decode_eq_map_char (cs : List Char) :
    decode cs = (decodeWithMarks cs).map (·.map Marked.char) := by
  unfold decode decodeWithMarks Utf8.decode
  cases octets? cs with
  | none => rfl
  | some os => simp [Utf8.decodeBy_map, Function.comp_def]

end Restconf.Text.Percent
