import Restconf.Address.Basic
import Restconf.Branch
import Restconf.Query.Basic
import Restconf.Request.Error

set_option autoImplicit false

/-! # Requests

A request after its target was taken apart. A refused request keeps the parts that were found
before the error, and the others stay at their defaults. -/

namespace Restconf

/-- A request with a known method. -/
structure Request where
  method : Method
  scheme : String
  host : Option String
  entryPoint : String
  /-- The path of the URL, entry point included. -/
  path : String
  /-- The part of the path below the branch. -/
  resource : String
  branch : Option Branch
  address : Address
  query : Query
  error : Option Request.Error
  deriving Repr, DecidableEq

namespace Request

/-- The request was not refused. -/
def isValid (r : Request) : Bool :=
  r.error.isNone

/-- The methods that the addressed resource answers. -/
def methods (r : Request) : List Method :=
  match r.branch with
  | some branch => branch.methods (!r.address.isRoot)
  | none => []

/-- The resource answers the request's method. -/
def isPermitted (r : Request) : Bool :=
  r.isValid && r.methods.contains r.method

/-- The path that leads to the addressed part of the datastore. -/
def location? (r : Request) : Option String :=
  if r.isValid ∧ r.branch = some .datastore then some (r.address.location r.entryPoint)
  else none

/-- The characters of the request's path and query. -/
def renderTarget (r : Request) : List Char :=
  r.path.toList ++ if r.query.isEmpty then [] else '?' :: r.query.render

/-- The request as it is logged: method, path and query. -/
def render (r : Request) : List Char :=
  r.method.name.toList ++ ' ' :: r.renderTarget

instance : ToString Request := ⟨fun r => String.ofList r.render⟩

end Request

end Restconf
