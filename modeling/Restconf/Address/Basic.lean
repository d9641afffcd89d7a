import Restconf.Address.Error
import Restconf.Segment

set_option autoImplicit false

/-! # Resource addresses

An address is a path that was read into segments, or a path that was refused together with its
fault. A refused path has no segments, but it is not the root.

The modules of a path (`modules`, `formsByModule`) are views of its segments. -/

namespace Restconf

/-- A resource path after reading. -/
inductive Address where
  /-- The text `input` leads through `segments`. -/
  | resolved (input : String) (segments : List Segment)
  /-- The text `input` is no path. -/
  | rejected (input : String) (fault : Address.Fault)
  deriving Repr, DecidableEq

namespace Address

/-- The text of the path. -/
def input : Address → String
  | resolved input _ | rejected input _ => input

/-- The steps of the path. -/
def segments : Address → List Segment
  | resolved _ segments => segments
  | rejected _ _ => []

/-- Why the path was refused. -/
def error? : Address → Option Error
  | resolved _ _ => none
  | rejected input fault => some ⟨input, fault⟩

/-- The path was read. -/
def isValid : Address → Bool
  | resolved _ _ => true
  | rejected _ _ => false

/-- The number of segments. -/
def depth (a : Address) : Nat :=
  a.segments.length

/-- The address is that of the whole datastore. -/
def isRoot (a : Address) : Bool :=
  a.isValid && a.segments.isEmpty

/-- The last segment. -/
def target? (a : Address) : Option Segment :=
  a.segments.getLast?

/-! ## Writing -/

/-- A path of these segments. -/
def renderSegments : List Segment → List Char
  | [] => ['/']
  | segments => segments.flatMap fun s => '/' :: s.render

/-- The text of an address; a refused path is shown as it came. -/
def render : Address → List Char
  | resolved _ segments => renderSegments segments
  | rejected input _ => input.toList

instance : ToString Address := ⟨fun a => String.ofList a.render⟩

/-- The segments in canonical form below a node of module `parent`. -/
def canonicalSegments : Option Identifier → List Segment → List Segment
  | _, [] => []
  | parent, s :: rest => s.canonical parent :: canonicalSegments s.module? rest

/-- The characters of the canonical path. -/
def canonicalChars (a : Address) : List Char :=
  renderSegments (canonicalSegments none a.segments)

/-- The canonical path: modules only where they change, keys without quotes. -/
def canonical (a : Address) : String :=
  String.ofList a.canonicalChars

/-- The characters of the URL path below `entryPoint` that leads to the address. -/
def locationChars (a : Address) (entryPoint : String) : List Char :=
  let entry := (Text.trimSlashes entryPoint).toList
  let root := if entry.isEmpty then ['/'] else '/' :: entry ++ ['/']
  root ++ ['d', 'a', 't', 'a'] ++ if a.segments.isEmpty then [] else a.canonicalChars

/-- The URL path below `entryPoint` that leads to the address. -/
def location (a : Address) (entryPoint : String) : String :=
  String.ofList (a.locationChars entryPoint)

/-! ## Construction -/

/-- The address of a list of segments, with its own text as input. -/
def ofSegments (segments : List Segment) : Address :=
  resolved (String.ofList (renderSegments segments)) segments

/-- The address of the whole datastore. -/
def root : Address :=
  ofSegments []

/-- The address without its last segment. -/
def parent? (a : Address) : Option Address :=
  if a.segments.isEmpty then none else some (ofSegments a.segments.dropLast)

/-- Every address above this one, the nearest first. -/
def ancestors (a : Address) : List Address :=
  (List.range a.depth).reverse.map fun n => ofSegments (a.segments.take n)

/-! ## Comparison -/

/-- `b` is this address or one above it. -/
def isWithin (a b : Address) : Bool :=
  b.depth ≤ a.depth && (a.segments.zip b.segments).all fun (x, y) => x.leadsTo y

/-- The addresses agree in input, segments and fault. -/
def same : Address → Address → Bool
  | resolved i ss, resolved j ts =>
    i = j && ss.length = ts.length && (ss.zip ts).all fun (x, y) => x.same y
  | rejected i e, rejected j f => i = j && e = f
  | _, _ => false

/-! ## Modules -/

/-- The modules along the path, each once, in order of first appearance. -/
def modules (a : Address) : List Identifier :=
  (a.segments.filterMap Segment.module?).foldl
    (fun seen m => if seen.contains m then seen else seen ++ [m]) []

/-- The module that the path starts in. -/
def firstModule? (a : Address) : Option Identifier :=
  a.segments.head?.bind Segment.module?

/-- The name that a segment's module is grouped under; empty if it has none. -/
def groupOf (s : Segment) : String :=
  (s.module?.map Identifier.text).getD ""

/-- The groups with `form` added to the group `name`, kept in ascending order of names. -/
def addToGroup (name form : String) : List (String × List String) → List (String × List String)
  | [] => [(name, [form])]
  | (other, forms) :: rest =>
    if name = other then (other, forms ++ [form]) :: rest
    else if name < other then (name, [form]) :: (other, forms) :: rest
    else (other, forms) :: addToGroup name form rest

/-- The segments without their modules, grouped by module in ascending order of names. -/
def formsByModule (a : Address) : List (String × List String) :=
  a.segments.foldl (fun groups s => addToGroup (groupOf s) s.withoutModule groups) []

end Address

end Restconf
