import Restconf.Calendar
import Restconf.Identifier

set_option autoImplicit false

/-! # Library entries

What a server tells of a module it implements: its name, the date of its revision, its XML
namespace and the features it has. -/

namespace Restconf.Library

/-- Why a module is not entered in a library or not found in it. -/
inductive Error where
  | unknownModule (module : String)
  | repeatedModule (module : String)
  | badName (module : String) (reason : Identifier.Error)
  | badRevision (module revision : String)
  deriving Repr, DecidableEq

/-- The wording of an error. -/
def Error.message : Error → String
  | .unknownModule module => s!"module '{module}' not found in schema registry"
  | .repeatedModule module => s!"module '{module}' is already registered"
  | .badName module reason => s!"invalid module name '{module}': " ++ reason.message
  | .badRevision module revision =>
    s!"invalid revision '{revision}' for module '{module}'; expected YYYY-MM-DD"

/-- A module that a server implements. -/
structure Entry where
  module : Identifier
  revision : Option Date
  namespaceUri : String
  features : List String
  deriving Repr, DecidableEq

namespace Entry

/-- The entry of a module without revision and features. -/
def ofModule (module namespaceUri : String) : Except Error Entry :=
  match Identifier.parse module with
  | .ok m => .ok ⟨m, none, namespaceUri, []⟩
  | .error reason => .error (.badName module reason)

/-- The entry with the revision of a date. -/
def setRevision (e : Entry) (revision : String) : Except Error Entry :=
  match Date.parse? .beforeNumbers revision with
  | some date => .ok { e with revision := some date }
  | none => .error (.badRevision e.module.text revision)

/-- The entry with one more feature. -/
def addFeature (e : Entry) (feature : String) : Entry :=
  { e with features := e.features ++ [feature] }

/-- The text of the revision. -/
def revisionText? (e : Entry) : Option String :=
  e.revision.map toString

/-- The module has the feature. -/
def offers (e : Entry) (feature : String) : Bool :=
  e.features.contains feature

end Entry

end Restconf.Library
