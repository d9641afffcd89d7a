import Restconf.ListInstance.Error

set_option autoImplicit false

/-! # Why a path is refused -/

namespace Restconf.Address

/-- What is wrong with a path. -/
inductive Fault where
  | notAbsolute
  /-- Two slashes follow each other, or the last is a trailing one. -/
  | emptySegment (index : Nat)
  | badModule (module : String) (reason : Identifier.Error)
  /-- A segment has more than one colon before its keys. -/
  | manyColons (token : String)
  | badName (identifier : String) (reason : Identifier.Error)
  | badListInstance (segment : String) (reason : ListInstance.Error)
  /-- An operation is addressed by a single segment. -/
  | deepOperation (actual : Nat)
  /-- An operation has no entries. -/
  | listOperation (segment : String)
  deriving Repr, DecidableEq

/-- The wording of a fault. -/
def Fault.message : Fault → String
  | .notAbsolute => "path must begin with '/'"
  | .emptySegment index =>
    s!"empty segment at index {index}; trailing or doubled '/' is not allowed"
  | .badModule module reason => s!"invalid module '{module}': " ++ reason.message
  | .manyColons token => s!"invalid module/identifier token '{token}'"
  | .badName identifier reason =>
    s!"invalid identifier '{identifier}': " ++ reason.message
  | .badListInstance segment reason =>
    s!"invalid list-instance '{segment}': " ++ reason.message
  | .deepOperation actual =>
    s!"operations resource accepts at most 1 segment(s), found {actual}"
  | .listOperation segment =>
    s!"operations resource cannot address list instance '{segment}'"

/-- A refused path. -/
structure Error where
  input : String
  fault : Fault
  deriving Repr, DecidableEq

/-- The wording of a refusal. -/
def Error.message (e : Error) : String :=
  s!"invalid resource path '{e.input}': " ++ e.fault.message

end Restconf.Address
