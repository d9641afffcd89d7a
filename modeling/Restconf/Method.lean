import Restconf.Text.Case

set_option autoImplicit false

/-! # Request methods

The seven methods of a RESTCONF server. A method is read in any letter case and always written in
upper case. -/

namespace Restconf

/-- A method that a RESTCONF server knows. -/
inductive Method where
  | get
  | post
  | put
  | patch
  | delete
  | options
  | head
  deriving Repr, DecidableEq

namespace Method

/-- Every method, in the order in which answers list them. -/
def all : List Method :=
  [get, post, put, patch, delete, options, head]

theorem mem_all (m : Method) : m ∈ all := by
  cases m <;> decide

/-- The name of a method on a request line. -/
def name : Method → String
  | get => "GET"
  | post => "POST"
  | put => "PUT"
  | patch => "PATCH"
  | delete => "DELETE"
  | options => "OPTIONS"
  | head => "HEAD"

instance : ToString Method := ⟨name⟩

/-- A request with this method may carry a body. -/
def mayHaveBody : Method → Bool
  | post | put | patch => true
  | _ => false

/-- The method only reads. -/
def isSafe : Method → Bool
  | get | head | options => true
  | _ => false

/-! ## Reading -/

/-- The refusal of an unknown method. -/
structure Error where
  /-- The refused text in upper case. -/
  token : String
  deriving Repr, DecidableEq

/-- The wording of a refusal. -/
def Error.message (e : Error) : String :=
  s!"[{e.token}] is not a valid RESTCONF operation/method"

/-- The status code that answers an unknown method. -/
def Error.status : Nat := 405

/-- The error tag that answers an unknown method. -/
def Error.tag : String := "operation-not-supported"

/-- Reads a method in any letter case. -/
def parse (text : String) : Except Error Method :=
  match all.find? (·.name = Text.upper text) with
  | some m => .ok m
  | none => .error ⟨Text.upper text⟩

theorem parse_name (m : Method) : parse m.name = .ok m := by
  cases m <;> rfl

end Method

end Restconf
