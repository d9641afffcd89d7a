import Restconf.ListInstance.Basic

set_option autoImplicit false

/-! # Path segments

A segment names a node or an entry of a list. -/

namespace Restconf

/-- One step of a path. -/
inductive Segment where
  | node (name : NodeName)
  | list (entry : ListInstance)
  deriving Repr, DecidableEq

namespace Segment

/-- The name of the node or list. -/
def nodeName : Segment → NodeName
  | node name => name
  | list entry => entry.node

/-- The module of the node or list. -/
def module? (s : Segment) : Option Identifier :=
  s.nodeName.module?

/-- The name without its module. -/
def name (s : Segment) : Identifier :=
  s.nodeName.name

/-- The keys of a list entry; a node has none. -/
def keys : Segment → List Key
  | node _ => []
  | list entry => entry.keys

/-- The segment addresses a list entry. -/
def isList : Segment → Bool
  | node _ => false
  | list _ => true

/-! ## Comparison -/

/-- The segments lead to the same place: modules, names and key values agree, however they are
    written. -/
def leadsTo (a b : Segment) : Bool :=
  a.module? = b.module? && a.name = b.name && a.keys.length = b.keys.length &&
    (a.keys.zip b.keys).all fun (x, y) => x.value.same y.value

/-- The segments agree in all that a path shows of them. -/
def same : Segment → Segment → Bool
  | node a, node b => a = b
  | list a, list b => a.same b
  | _, _ => false

/-! ## Writing -/

/-- What follows the name of a list entry. -/
def renderKeys : Segment → List Char
  | node _ => []
  | list entry => '=' :: Key.renderAll entry.keys

/-- The segment as it stands in a path. -/
def render (s : Segment) : List Char :=
  s.nodeName.render ++ s.renderKeys

instance : ToString Segment := ⟨fun s => String.ofList s.render⟩

/-- The segment without any module. -/
def withoutModule (s : Segment) : String :=
  String.ofList (s.name.chars ++ s.renderKeys)

/-- The segment in canonical form below a node of module `parent`: its module is written only
    where it changes and its keys are not quoted. -/
def canonical (parent : Option Identifier) : Segment → Segment
  | node name => node (name.canonical parent)
  | list entry => list ⟨entry.node.canonical parent, entry.keys.map Key.unquoted⟩

end Segment

end Restconf
