import Restconf.Identifier

set_option autoImplicit false

/-! # Node names

A node of the data tree belongs to a module. A path names the module where it changes, as in
`ietf-interfaces:interfaces`, and every node below it carries that module on. -/

namespace Restconf

/-- How a node comes by its module. -/
inductive ModuleScope where
  /-- The path has named no module yet. -/
  | unknown
  /-- The module was named by a node further up. -/
  | carried (module : Identifier)
  /-- The node names its module itself. -/
  | written (module : Identifier)
  deriving Repr, DecidableEq

namespace ModuleScope

/-- The module in scope. -/
def module? : ModuleScope → Option Identifier
  | unknown => none
  | carried m | written m => some m

/-- The scope that a parent hands on. -/
def carry : Option Identifier → ModuleScope
  | none => unknown
  | some m => carried m

/-- The scope of a module that is written out if `qualified`. -/
def ofModule (module : Option Identifier) (qualified : Bool) : ModuleScope :=
  match module with
  | none => unknown
  | some m => if qualified then written m else carried m

@[simp] theorem module?_carry (module : Option Identifier) : (carry module).module? = module := by
  cases module <;> rfl

end ModuleScope

/-- The name of a node with its module. -/
structure NodeName where
  scope : ModuleScope
  name : Identifier
  deriving Repr, DecidableEq

namespace NodeName

/-- The module of a node. -/
def module? (n : NodeName) : Option Identifier :=
  n.scope.module?

/-- The path names the node's module at this node. -/
def isQualified (n : NodeName) : Bool :=
  match n.scope with
  | .written _ => true
  | _ => false

/-- The name as it stands in a path. -/
def render (n : NodeName) : List Char :=
  match n.scope with
  | .written m => m.chars ++ ':' :: n.name.chars
  | _ => n.name.chars

instance : ToString NodeName := ⟨fun n => String.ofList n.render⟩

/-- The name below a node of module `parent`, with its module written only if it differs. -/
def canonical (parent : Option Identifier) (n : NodeName) : NodeName :=
  { n with scope := .ofModule n.module? (n.module? ≠ parent) }

end NodeName

end Restconf
