import Restconf.Address.Reader
import Restconf.Request.Basic
import Restconf.Settings
import Restconf.Url

set_option autoImplicit false

/-! # Reading requests

What a request asks for is read off its URL: the scheme has to be one of HTTP's, the path has to lie
below the entry point and go on with a branch of the API, what follows has to be a path of its own,
and the query has to be well-formed without a repeated parameter. The first of these that fails is
the error. -/

namespace Restconf

/-- What a path below the entry point leads to. -/
structure Destination where
  branch : Branch
  resource : String
  address : Address
  deriving Repr, DecidableEq

namespace Destination

/-- Takes apart what follows the entry point; none if it opens no branch. Operations have addresses
    of their own. -/
def ofPath? : List Char → Option Destination
  | [] => some ⟨.root, "", .root⟩
  | ['/'] => some ⟨.root, "/", .root⟩
  | '/' :: rest =>
    let resource := String.ofList (rest.dropWhile (· ≠ '/'))
    (Branch.ofSegment? (String.ofList (Text.before '/' rest))).map fun branch =>
      match branch with
      | .operations => ⟨branch, resource, .parseOperation resource⟩
      | _ => ⟨branch, resource, .parse resource⟩
  | _ => none

end Destination

namespace Request

/-- A request of which only the method is known. -/
def blank (settings : Settings) (method : Method) : Request where
  method := method
  scheme := settings.defaultScheme
  host := none
  entryPoint := settings.entryPoint
  path := ""
  resource := ""
  branch := none
  address := .root
  query := .empty
  error := none

/-- The request, refused. -/
def refuse (r : Request) (e : Error) : Request :=
  { r with error := some e }

/-- Fills in the query. -/
def fillQuery (r : Request) (query : List Char) : Request :=
  match Query.read query with
  | .error e => r.refuse (.badQuery e)
  | .ok q =>
    let r := { r with query := q }
    match q.requireUnique with
    | .error e => r.refuse (.badQuery e)
    | .ok () => r

/-- Fills in what the path leads to, and then the query. -/
def fillDestination (r : Request) (d : Destination) (query : List Char) : Request :=
  let r := { r with branch := some d.branch, resource := d.resource, address := d.address }
  match d.address.error? with
  | some e => r.refuse (.badPath e)
  | none => r.fillQuery query

/-- Fills in the parts of the URL after the scheme. -/
def fillParts (r : Request) (url : Url) : Request :=
  let r := { r with host := url.host.map String.ofList, path := String.ofList url.path }
  match Url.below? r.entryPoint.toList url.path with
  | none => r.refuse (.outsideEntryPoint r.path r.entryPoint)
  | some rest =>
    match Destination.ofPath? rest with
    | none => r.refuse (.unknownBranch r.path)
    | some d => r.fillDestination d url.query

/-- Fills in everything that a URL says. -/
def fill (r : Request) (url : String) : Request :=
  if url.isEmpty then r.refuse .emptyUrl
  else
    let parts := Url.split url.toList
    let scheme := (parts.scheme.map fun s => Text.lower (String.ofList s)).getD r.scheme
    let r := { r with scheme := scheme }
    if Settings.allowedSchemes.contains scheme then r.fillParts parts
    else r.refuse (.unsupportedScheme scheme)

/-- Reads a request to a server. Only an unknown method is refused outright; any other fault is part
    of the result. -/
def parse (settings : Settings) (method url : String) : Except Method.Error Request :=
  (Method.parse method).map fun m => (blank settings m).fill url

/-- Reads a request to a server with the usual settings but its own entry point. -/
def parseBelow (entryPoint method url : String) : Except Method.Error Request :=
  parse (Settings.usual.setEntryPoint entryPoint) method url

end Request

end Restconf
