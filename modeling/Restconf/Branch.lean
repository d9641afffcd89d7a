import Restconf.Method

set_option autoImplicit false

/-! # Branches of the API

Below its entry point a server offers the datastore, the operations and the schema library, each
under a path segment of its own; the entry point itself is the root. A branch decides which methods
a request may use. -/

namespace Restconf

/-- The part of the API that a request addresses. -/
inductive Branch where
  | root
  | datastore
  | operations
  | schemaLibrary
  deriving Repr, DecidableEq

namespace Branch

/-- The name of a branch in reports. -/
def name : Branch → String
  | root => "root"
  | datastore => "datastore"
  | operations => "operations"
  | schemaLibrary => "schema-library"

instance : ToString Branch := ⟨name⟩

/-- The path segment that opens a branch; the root has none. -/
def segment? : Branch → Option String
  | root => none
  | datastore => some "data"
  | operations => some "operations"
  | schemaLibrary => some "yang-library-version"

/-- The branch that a path segment opens. -/
def ofSegment? (segment : String) : Option Branch :=
  [datastore, operations, schemaLibrary].find? (·.segment? = some segment)

theorem ofSegment?_eq_some_iff {segment : String} {b : Branch} :
    ofSegment? segment = some b ↔ b.segment? = some segment := by
  constructor
  · intro h
    simpa using List.find?_some h
  · intro h
    cases b <;> simp only [segment?, reduceCtorEq, Option.some.injEq] at h <;> subst h <;> rfl

/-- The methods that a branch answers, given whether the request names a resource in it. Operations
    can be invoked but not listed. -/
def methods (branch : Branch) (hasTarget : Bool) : List Method :=
  match branch, hasTarget with
  | root, _ | schemaLibrary, _ => [.get, .head, .options]
  | datastore, _ => Method.all
  | operations, false => []
  | operations, true => [.post, .options]

end Branch

end Restconf
