import Restconf.Revision.EntityTag
import Restconf.Revision.Instant

set_option autoImplicit false

/-! # Revision trees

A server keeps a revision, a time and a tag, for the datastore and for nodes below it. When a
configuration node changes, it and every node above it get the time of the change and a fresh tag.
Changes of other nodes leave no trace.

Nodes are numbered in the order in which they are added, the root being number zero. Fresh tags come
from a supply, of which the tree counts how many it has taken. -/

namespace Restconf

/-- A state of a node. -/
structure Revision where
  lastModified : Instant
  tag : EntityTag
  deriving Repr, DecidableEq

namespace Revision

/-- A node of the data tree. -/
structure Node where
  name : String
  /-- The number of the node above; the root has none. -/
  parent : Option Nat
  /-- The node holds configuration. -/
  config : Bool
  revision : Revision
  deriving Repr, DecidableEq

/-- Why an operation on a tree fails. -/
inductive Error where
  | unknownNode (id : Nat)
  deriving Repr, DecidableEq

/-- The wording of an error. -/
def Error.message : Error → String
  | .unknownNode id => s!"node {id} does not exist in the revision tree"

/-- The nodes of the datastore with their revisions. -/
structure Tree where
  nodes : List Node
  /-- How many tags were taken from the supply. -/
  taken : Nat
  deriving Repr, DecidableEq

namespace Tree

/-- The number of the root. -/
def rootId : Nat := 0

/-- The tree of a root alone. -/
def ofRoot (supply : EntityTag.Supply) (name : String) (time : Instant) : Tree :=
  ⟨[⟨name, none, true, ⟨time, supply 0⟩⟩], 1⟩

/-- The number of nodes. -/
def size (t : Tree) : Nat :=
  t.nodes.length

/-- The node of a number, or the error that there is none. -/
def node (t : Tree) (id : Nat) : Except Error Node :=
  match t.nodes[id]? with
  | some n => .ok n
  | none => .error (.unknownNode id)

/-- Adds a node below `parent`, with the time of its parent and a fresh tag, and tells its
    number. -/
def add (supply : EntityTag.Supply) (t : Tree) (parent : Nat) (name : String) (config : Bool) :
    Except Error (Nat × Tree) :=
  match t.node parent with
  | .error e => .error e
  | .ok above =>
    let revision : Revision := ⟨above.revision.lastModified, supply t.taken⟩
    .ok (t.size, ⟨t.nodes ++ [⟨name, some parent, config, revision⟩], t.taken + 1⟩)

/-! ## Changes -/

/-- The number of the node above. -/
def parentOf? (t : Tree) (id : Nat) : Option Nat :=
  t.nodes[id]?.bind Node.parent

/-- The node and every node above it, the root last. A node is added after its parent, so the
    numbers go down. -/
def lineage (t : Tree) (id : Nat) : List Nat :=
  match t.parentOf? id with
  | none => [id]
  | some parent => if parent < id then id :: t.lineage parent else [id]
termination_by id

/-- Gives one node a time and a fresh tag. -/
def touch (supply : EntityTag.Supply) (time : Instant) (t : Tree) (id : Nat) : Tree :=
  ⟨t.nodes.modify id fun n => { n with revision := ⟨time, supply t.taken⟩ }, t.taken + 1⟩

/-- Records a change of a node, and tells whether it left a trace. -/
def recordChange (supply : EntityTag.Supply) (t : Tree) (id : Nat) (time : Instant) :
    Except Error (Bool × Tree) :=
  match t.node id with
  | .error e => .error e
  | .ok n =>
    if n.config then .ok (true, (t.lineage id).foldl (touch supply time) t) else .ok (false, t)

/-- The revision of the datastore; that of the root. -/
def rootRevision? (t : Tree) : Option Revision :=
  t.nodes.head?.map Node.revision

end Tree

end Revision

end Restconf
