import Restconf.Key.Reader
import Restconf.NodeName

set_option autoImplicit false

/-! # List instances

An entry of a list is addressed by the name of the list and the values of its keys:

```text
list-instance = api-identifier "=" key-value *("," key-value)
```
-/

namespace Restconf

/-- A list entry, addressed by its keys in order. -/
structure ListInstance where
  node : NodeName
  keys : List Key
  deriving Repr, DecidableEq

namespace ListInstance

/-- The instance as it stands in a path. -/
def render (entry : ListInstance) : List Char :=
  entry.node.render ++ '=' :: Key.renderAll entry.keys

instance : ToString ListInstance := ⟨fun entry => String.ofList entry.render⟩

/-- The keys in canonical form. -/
def canonicalKeys (entry : ListInstance) : String :=
  String.ofList (Key.renderAll (entry.keys.map Key.unquoted))

/-- The entry has this name and the same keys, in text, quotes and value. -/
def same (a b : ListInstance) : Bool :=
  a.node = b.node && a.keys.length = b.keys.length && (a.keys.zip b.keys).all fun (x, y) => x.same y

/-- Reads `name=key,key` under a module scope. -/
def read (scope : ModuleScope) (cs : List Char) : Except Error ListInstance :=
  match Text.cut? '=' cs with
  | none => .error .noSeparator
  | some (name, raw) =>
    match Identifier.parse (String.ofList name) with
    | .error reason => .error (.badName (String.ofList name) reason)
    | .ok id => (Key.readAll raw).map fun keys => ⟨⟨scope, id⟩, keys⟩

/-- Reads `name=key,key` with `module` in scope for the name. -/
def parse (module : Option Identifier) (text : String) : Except Error ListInstance :=
  read (.carry module) text.toList

end ListInstance

end Restconf
