import Restconf.Decimal.Shortest
import Restconf.ListInstance.Error
import Restconf.Text.Case

set_option autoImplicit false

/-! # Key values

The keys of a list entry have types, which a path does not spell out: `ofText` reads a text as a
boolean, an integer of any size, a binary64 number or else a string, and `render` writes a value
so that its kind shows again. -/

namespace Restconf

/-- The value of a list key. -/
inductive KeyValue where
  | string (text : String)
  | boolean (value : Bool)
  | integer (value : Int)
  | float (value : Binary64)
  deriving Repr, DecidableEq

namespace KeyValue

/-! ## Kinds and equality -/

/-- The type of a key value. -/
inductive Kind where
  | string
  | boolean
  | integer
  | float
  deriving Repr, DecidableEq

/-- The name of a kind in reports. -/
def Kind.name : Kind → String
  | string => "string"
  | boolean => "boolean"
  | integer => "integer"
  | float => "float"

/-- The kind of a value. -/
def kind : KeyValue → Kind
  | string _ => .string
  | boolean _ => .boolean
  | integer _ => .integer
  | float _ => .float

/-- The two keys have one value. Floats are compared as numbers, so `0.0` is `-0.0` and "not a
    number" differs from itself. -/
def same : KeyValue → KeyValue → Bool
  | string a, string b => a = b
  | boolean a, boolean b => a = b
  | integer a, integer b => a = b
  | float a, float b => a.same b
  | _, _ => false

/-! ## Text -/

/-- The text of a value. -/
def render : KeyValue → List Char
  | string text => text.toList
  | boolean true => ['t', 'r', 'u', 'e']
  | boolean false => ['f', 'a', 'l', 's', 'e']
  | integer n => Decimal.renderInt n
  | float x => x.render

instance : ToString KeyValue := ⟨fun v => String.ofList v.render⟩

/-- The boolean that a text spells, in one of the two accepted letter cases. -/
def boolean? (token : String) : Option Bool :=
  if token = "true" ∨ token = "True" then some true
  else if token = "false" ∨ token = "False" then some false
  else none

/-- The text spells a boolean in some letter case. -/
def spellsBoolean (token : String) : Bool :=
  Text.lower token = "true" || Text.lower token = "false"

/-- Reads a text as a value: a boolean, else an integer, else a decimal, else a string. A boolean
    in an unusual letter case is refused instead of read as a string. -/
def ofText (token : String) : Except ListInstance.Error KeyValue :=
  match boolean? token with
  | some b => .ok (.boolean b)
  | none =>
    if spellsBoolean token then .error (.badBoolean token)
    else
      match Decimal.integer? token.toList with
      | some n => .ok (.integer n)
      | none =>
        match Decimal.fraction? token.toList with
        | some f => .ok (.float (Binary64.ofFraction f))
        | none => .ok (.string token)

end KeyValue

end Restconf
