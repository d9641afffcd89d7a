import Restconf.Identifier
import Restconf.Key.Quote

set_option autoImplicit false

/-! # Why a list instance is refused

Places count the characters of the key list after percent escapes are read, from zero. -/

namespace Restconf.ListInstance

/-- Why a segment is not a list instance. -/
inductive Error where
  /-- No `=` divides the name from the keys. -/
  | noSeparator
  | badName (identifier : String) (reason : Identifier.Error)
  /-- Nothing follows the `=`. -/
  | noKeys
  /-- A quoted key does not end; `position` is where it opens. -/
  | openQuote (quote : QuoteMark) (position : Nat)
  /-- Something other than a separating comma follows a quoted key. -/
  | afterQuote (char : Char) (position : Nat)
  /-- A key spells a boolean in a letter case that is not allowed. -/
  | badBoolean (value : String)
  /-- The key list has a malformed escape or does not spell UTF-8. -/
  | badEscape (value : String)
  deriving Repr, DecidableEq

/-- The wording of an error. -/
def Error.message : Error → String
  | .noSeparator => "missing '=' between list name and key values"
  | .badName identifier reason =>
    s!"invalid list name '{identifier}': " ++ reason.message
  | .noKeys => "no key values given; missing key values are not allowed"
  | .openQuote quote position =>
    "unterminated " ++ toString quote.char ++ s!" quote starting at position {position}"
  | .afterQuote char position =>
    s!"unexpected character '{char}' after closing quote at position {position}"
  | .badBoolean value =>
    s!"invalid boolean '{value}'; use 'true', 'True', 'false' or 'False'"
  | .badEscape value => s!"invalid percent encoding in '{value}'"

end Restconf.ListInstance
