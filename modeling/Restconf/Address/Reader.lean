import Restconf.Address.Basic

set_option autoImplicit false

/-! # Reading paths

```text
path    = "" / "/" / 1*("/" segment)
segment = [module ":"] name / [module ":"] list-instance
```

A module named by a segment is in scope for it and for every segment after it, up to the next one
that names a module. `parse` keeps a refused path as an address of its own; `parse?` returns the
error. -/

namespace Restconf.Address

open Text

/-! ## Segments -/

/-- Reads a segment without its module; `token` is the whole segment, for reports. -/
def readLocal (token : List Char) (scope : ModuleScope) (rest : List Char) :
    Except Fault Segment :=
  if rest.contains '=' then
    match ListInstance.read scope rest with
    | .ok entry => .ok (.list entry)
    | .error reason => .error (.badListInstance (String.ofList token) reason)
  else
    match Identifier.parse (String.ofList rest) with
    | .ok name => .ok (.node ⟨scope, name⟩)
    | .error reason => .error (.badName (String.ofList rest) reason)

/-- Reads a segment below a node of module `parent`. A colon after the first `=` belongs to the
    keys. -/
def readSegment (parent : Option Identifier) (token : List Char) : Except Fault Segment :=
  match cut? ':' (before '=' token) with
  | none => readLocal token (.carry parent) token
  | some (module, afterColon) =>
    if afterColon.contains ':' then .error (.manyColons (String.ofList token))
    else
      match Identifier.parse (String.ofList module) with
      | .ok m => readLocal token (.written m) (token.drop (module.length + 1))
      | .error reason => .error (.badModule (String.ofList module) reason)

/-- Reads segments below a node of module `parent`; places count from `index`. -/
def readSegments (parent : Option Identifier) (index : Nat) :
    List (List Char) → Except Fault (List Segment)
  | [] => .ok []
  | token :: tokens =>
    if token.isEmpty then .error (.emptySegment index)
    else
      match readSegment parent token with
      | .error fault => .error fault
      | .ok s => (readSegments s.module? (index + 1) tokens).map (s :: ·)

/-! ## Paths -/

/-- Reads a path. -/
def readPath : List Char → Except Fault (List Segment)
  | [] | ['/'] => .ok []
  | '/' :: body => readSegments none 0 (body.splitOn '/')
  | _ => .error .notAbsolute

/-- Reads a path that addresses an operation: at most one segment, and no list entry. -/
def readOperation (cs : List Char) : Except Fault (List Segment) :=
  match readPath cs with
  | .error fault => .error fault
  | .ok segments =>
    if 1 < segments.length then .error (.deepOperation segments.length)
    else
      match segments.find? Segment.isList with
      | some s => .error (.listOperation (toString s))
      | none => .ok segments

/-- The address of a text, given the outcome of reading it. -/
def ofOutcome (input : String) : Except Fault (List Segment) → Address
  | .ok segments => resolved input segments
  | .error fault => rejected input fault

/-- The address that a path leads to. -/
def parse (input : String) : Address :=
  ofOutcome input (readPath input.toList)

/-- The address of an operation. -/
def parseOperation (input : String) : Address :=
  ofOutcome input (readOperation input.toList)

/-- The address that a path leads to, or why it is refused. -/
def parse? (input : String) : Except Error Address :=
  match readPath input.toList with
  | .ok segments => .ok (resolved input segments)
  | .error fault => .error ⟨input, fault⟩

end Restconf.Address
