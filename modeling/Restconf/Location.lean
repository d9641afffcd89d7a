import Restconf.Address.Basic
import Restconf.Query.Basic

set_option autoImplicit false

/-! # Building locations

A location is built from its top node down, so that every node has a module: `start` names the
first one, `enter` and `enterList` stay in it, and `enterModule` may move to another. The module is
written out only where it changes. A query goes along and does not affect the address. -/

namespace Restconf

/-- A location with at least its top node. -/
structure Location where
  segments : List Segment
  /-- The module of the last node. -/
  module : Identifier
  query : Query
  deriving Repr, DecidableEq

namespace Location

/-- The location of a top node, with the query given so far. -/
def start (query : Query) (module name : Identifier) : Location :=
  ⟨[.node ⟨.written module, name⟩], module, query⟩

/-- Goes down to a node of the same module. -/
def enter (l : Location) (name : Identifier) : Location :=
  { l with segments := l.segments ++ [.node ⟨.carried l.module, name⟩] }

/-- Goes down to a node of the given module. -/
def enterModule (l : Location) (module name : Identifier) : Location :=
  { l with
    segments := l.segments ++ [.node ⟨.ofModule (some module) (l.module ≠ module), name⟩]
    module := module }

/-- Goes down to an entry of a list in the same module. An entry has at least one key. -/
def enterList (l : Location) (name : Identifier) (values : List KeyValue) :
    Except ListInstance.Error Location :=
  if values.isEmpty then .error .noKeys
  else
    let entry : ListInstance := ⟨⟨.carried l.module, name⟩, values.map Key.ofValue⟩
    .ok { l with segments := l.segments ++ [.list entry] }

/-- Replaces the query. -/
def setQuery (l : Location) (query : Query) : Location :=
  { l with query := query }

/-! ## Names as text -/

/-- Reads the names and starts a location. -/
def startNamed (query : Query) (module name : String) : Except Identifier.Error Location :=
  match Identifier.parse module, Identifier.parse name with
  | .ok m, .ok n => .ok (start query m n)
  | .error e, _ | .ok _, .error e => .error e

/-- Reads the name and goes down to a node of the same module. -/
def enterNamed (l : Location) (name : String) : Except Identifier.Error Location :=
  (Identifier.parse name).map l.enter

/-- Reads the names and goes down to a node of the given module. -/
def enterModuleNamed (l : Location) (module name : String) : Except Identifier.Error Location :=
  match Identifier.parse module, Identifier.parse name with
  | .ok m, .ok n => .ok (l.enterModule m n)
  | .error e, _ | .ok _, .error e => .error e

/-- Reads the name and goes down to an entry of a list. -/
def enterListNamed (l : Location) (name : String) (values : List KeyValue) :
    Except ListInstance.Error Location :=
  match Identifier.parse name with
  | .ok n => l.enterList n values
  | .error reason => .error (.badName name reason)

/-! ## Results -/

/-- The number of segments. -/
def depth (l : Location) : Nat :=
  l.segments.length

/-- The address that was built. -/
def address (l : Location) : Address :=
  .ofSegments l.segments

/-- The URL path and query of the location below `entryPoint`. -/
def render (l : Location) (entryPoint : String) : String :=
  let path := l.address.locationChars entryPoint
  String.ofList (path ++ if l.query.render.isEmpty then [] else '?' :: l.query.render)

end Location

end Restconf
