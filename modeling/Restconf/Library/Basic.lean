import Restconf.Address.Basic
import Restconf.Library.Entry

set_option autoImplicit false

/-! # Schema libraries

The modules that a server implements. Each entry is filed under the name of a module, and the files
are kept in ascending order of these names. A library grows by `add`, which refuses a module that is
there already; `ofList` skips such modules and `addAll` stops at the first. -/

namespace Restconf

/-- The modules of a server. -/
structure Library where
  /-- The entries, each with the module that it is filed under. -/
  files : List (Identifier × Library.Entry)
  deriving Repr, DecidableEq

namespace Library

/-- The library without modules. -/
def empty : Library :=
  ⟨[]⟩

/-- The number of modules. -/
def size (l : Library) : Nat :=
  l.files.length

/-- The library has no modules. -/
def isEmpty (l : Library) : Bool :=
  l.files.isEmpty

/-- The entries in the order of their files. -/
def entries (l : Library) : List Entry :=
  l.files.map Prod.snd

/-! ## Looking up -/

/-- The entry that is filed under a module. -/
def find? (l : Library) (module : String) : Option Entry :=
  (l.files.find? (·.1.text = module)).map Prod.snd

/-- The library has the module. -/
def contains (l : Library) (module : String) : Bool :=
  (l.find? module).isSome

/-- The entry of a module, or the error that it has none. -/
def get (l : Library) (module : String) : Except Error Entry :=
  match l.find? module with
  | some e => .ok e
  | none => .error (.unknownModule module)

/-- The entries of some modules, up to the first that has none. -/
def getAll (l : Library) : List Identifier → Except Error (List Entry)
  | [] => .ok []
  | m :: rest =>
    match l.get m.text with
    | .error error => .error error
    | .ok e => (l.getAll rest).map (e :: ·)

/-- The entries of the modules along an address. -/
def entriesAlong (l : Library) (a : Address) : Except Error (List Entry) :=
  l.getAll a.modules

/-! ## Adding -/

/-- The files with `e` under `module`, in the place of the entry that was there, if any. -/
def insertFile (module : Identifier) (e : Entry) :
    List (Identifier × Entry) → List (Identifier × Entry)
  | [] => [(module, e)]
  | (other, f) :: rest =>
    if module.text < other.text then (module, e) :: (other, f) :: rest
    else if module.text = other.text then (other, e) :: rest
    else (other, f) :: insertFile module e rest

/-- Adds a module, unless it is there already. -/
def add (l : Library) (e : Entry) : Except Error Library :=
  if l.contains e.module.text then .error (.repeatedModule e.module.text)
  else .ok ⟨insertFile e.module e l.files⟩

/-- Adds a module, or leaves the library as it is. -/
def addNew (l : Library) (e : Entry) : Library :=
  match l.add e with
  | .ok grown => grown
  | .error _ => l

/-- The library of the first entry of each module. -/
def ofList (entries : List Entry) : Library :=
  entries.foldl addNew empty

/-- Adds modules one after the other, up to the first that is there already. -/
def addAll (l : Library) : List Entry → Except Error Library
  | [] => .ok l
  | e :: rest =>
    match l.add e with
    | .error error => .error error
    | .ok grown => grown.addAll rest

end Library

end Restconf
