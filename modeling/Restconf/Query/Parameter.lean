set_option autoImplicit false

/-! # Query parameters

The nine parameters that a RESTCONF query may have, each at most once. Other names are allowed in a
query but have no meaning here. -/

namespace Restconf.Query

/-- A parameter with a meaning of its own. -/
inductive Parameter where
  | content
  | depth
  | fields
  | filter
  | insert
  | point
  | startTime
  | stopTime
  | withDefaults
  deriving Repr, DecidableEq

namespace Parameter

/-- Every parameter, in the order in which repeated ones are reported. -/
def all : List Parameter :=
  [content, depth, fields, filter, insert, point, startTime, stopTime, withDefaults]

theorem mem_all (p : Parameter) : p ∈ all := by
  cases p <;> decide

/-- The name of a parameter in a query. -/
def name : Parameter → String
  | content => "content"
  | depth => "depth"
  | fields => "fields"
  | filter => "filter"
  | insert => "insert"
  | point => "point"
  | startTime => "start-time"
  | stopTime => "stop-time"
  | withDefaults => "with-defaults"

instance : ToString Parameter := ⟨name⟩

/-- The parameter of a name. -/
def ofName? (text : String) : Option Parameter :=
  all.find? (·.name = text)

theorem ofName?_name (p : Parameter) : ofName? p.name = some p := by
  cases p <;> rfl

theorem name_of_ofName? {text : String} {p : Parameter} (h : ofName? text = some p) :
    p.name = text := by
  simpa using List.find?_some h

end Parameter

end Restconf.Query
