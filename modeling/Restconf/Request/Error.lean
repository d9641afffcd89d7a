import Restconf.Address.Error
import Restconf.Query.Error

set_option autoImplicit false

/-! # Why a request is refused -/

namespace Restconf.Request

/-- What is wrong with a request. -/
inductive Error where
  | emptyUrl
  | unsupportedScheme (scheme : String)
  /-- The path does not lie below the entry point. -/
  | outsideEntryPoint (path entryPoint : String)
  /-- Below the entry point the path names no branch of the API. -/
  | unknownBranch (path : String)
  | badPath (reason : Address.Error)
  | badQuery (reason : Query.Error)
  deriving Repr, DecidableEq

namespace Error

/-- The wording of an error. -/
def message : Error → String
  | emptyUrl => "request URI is empty"
  | unsupportedScheme scheme => s!"scheme '{scheme}' not valid for RESTCONF"
  | outsideEntryPoint path entryPoint =>
    s!"URL path '{path}' does not start RESTCONF API root '{entryPoint}'"
  | unknownBranch path => s!"URL path '{path}' does not start a valid RESTCONF API URI"
  | badPath reason => reason.message
  | badQuery reason => "invalid query string: " ++ reason.message

/-- The status code of the answer. -/
def status : Error → Nat
  | outsideEntryPoint _ _ | unknownBranch _ => 404
  | emptyUrl | unsupportedScheme _ | badPath _ | badQuery _ => 400

/-- The error tag of the answer. -/
def tag : Error → String
  | emptyUrl | unsupportedScheme _ | badQuery (.badEscape _) => "malformed-message"
  | outsideEntryPoint _ _ | unknownBranch _ | badPath _ | badQuery _ => "invalid-value"

end Error

end Restconf.Request
