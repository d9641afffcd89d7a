import Restconf.Query.Parameter

set_option autoImplicit false

/-! # Why a query is refused -/

namespace Restconf.Query

/-- What is wrong with the name of a parameter. -/
inductive NameFault where
  | empty
  /-- The name has a character other than ASCII letters, digits, `-`, `_` and `.`. -/
  | strayCharacter
  /-- The name is none of the RESTCONF parameters, where one was asked for. -/
  | unknown
  deriving Repr, DecidableEq

/-- The wording of a name fault. -/
def NameFault.message : NameFault → String
  | .empty => "parameter name cannot be empty"
  | .strayCharacter => "name must be alphanumeric, '-', '_' or '.'"
  | .unknown => "not a RESTCONF query parameter"

/-- What the value of a parameter has to be. -/
def Parameter.expectation : Parameter → String
  | .content => "expected 'config', 'nonconfig' or 'all'"
  | .depth => "expected 'unbounded' or an integer from 1 to 65535"
  | .insert => "expected 'first', 'last', 'before' or 'after'"
  | .withDefaults => "expected 'report-all', 'trim', 'explicit' or 'report-all-tagged'"
  | .fields | .filter | .point | .startTime | .stopTime => "expected any text"

/-- Why a query, or the value of one of its parameters, is refused. -/
inductive Error where
  | badName (name : String) (reason : NameFault)
  | badValue (parameter : Parameter) (value : String)
  /-- The parameter occurs more than once. -/
  | repeated (parameter : Parameter)
  /-- The value has a malformed escape or does not spell UTF-8. -/
  | badEscape (value : String)
  deriving Repr, DecidableEq

/-- The wording of an error. -/
def Error.message : Error → String
  | .badName name reason => s!"invalid parameter name '{name}': " ++ reason.message
  | .badValue parameter value =>
    s!"invalid value '{value}' for parameter '{parameter}': " ++ parameter.expectation
  | .repeated parameter =>
    s!"duplicate parameter '{parameter}'; it must not appear more than once"
  | .badEscape value => s!"invalid percent encoding in '{value}'"

/-- The parameter of a name, or a refusal of the name. -/
def Parameter.parse (text : String) : Except Error Parameter :=
  match ofName? text with
  | some p => .ok p
  | none => .error (.badName text .unknown)

end Restconf.Query
