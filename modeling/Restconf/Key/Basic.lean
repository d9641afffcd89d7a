import Restconf.Key.Value

set_option autoImplicit false

/-! # Keys of a list entry

A key keeps its value, its text without quotes and escapes, and the quotes it was written in. Keys
are written back in those quotes. A key without quotes is written bare unless its text would then
be read as a quoted one; a lone empty key is always quoted, as `name=` names no entry. -/

namespace Restconf

/-- A key of a list entry. -/
structure Key where
  value : KeyValue
  /-- The text with quotes and escapes removed. -/
  text : String
  /-- The quotes the key was written in. -/
  quote : Option QuoteMark
  deriving Repr, DecidableEq

namespace Key

/-- The key of a value, without quotes. -/
def ofValue (value : KeyValue) : Key :=
  ⟨value, toString value, none⟩

/-- The key was written in quotes. -/
def isQuoted (k : Key) : Bool :=
  k.quote.isSome

/-- The key without its quotes. -/
def unquoted (k : Key) : Key :=
  { k with quote := none }

/-- The keys have the same text, quotes and value. -/
def same (a b : Key) : Bool :=
  a.value.same b.value && a.text = b.text && a.quote = b.quote

/-! ## Writing -/

/-- A key in its quotes. A key without quotes gets double ones if `forced` or if its text opens
    with a quote mark. -/
def render (forced : Bool) (k : Key) : List Char :=
  match k.quote with
  | some q => q.write k.text.toList
  | none =>
    if forced || opensQuoted k.text.toList then QuoteMark.double.write k.text.toList
    else Text.Percent.encode .key k.text.toList

instance : ToString Key := ⟨fun k => String.ofList (k.render false)⟩

/-- A key in its canonical form, whatever quotes it was written in. -/
def canonical (k : Key) : String :=
  toString k.unquoted

/-- The only key is empty and has to be quoted to be seen. -/
def loneEmpty : List Key → Bool
  | [k] => k.text.isEmpty
  | _ => false

/-- The keys of an entry, divided by commas. -/
def renderAll (keys : List Key) : List Char :=
  [','].intercalate (keys.map (render (loneEmpty keys)))

end Key

end Restconf
