import Restconf.Text.Percent
import Restconf.Query.Values
import Restconf.Text.Cut

set_option autoImplicit false

/-! # Queries

A query is a list of named values in the order in which they were given; a name may repeat and a
value may be empty. Reading checks names and undoes percent encoding; it leaves the meaning of the
values to the typed accessors and repeated parameters to `requireUnique`. -/

namespace Restconf

/-- The parameters of a request. -/
structure Query where
  pairs : List (String × String)
  deriving Repr, DecidableEq

namespace Query

open Text

/-- The query without parameters. -/
def empty : Query :=
  ⟨[]⟩

/-- The query with one more parameter, whatever its name. -/
def push (q : Query) (name value : String) : Query :=
  ⟨q.pairs ++ [(name, value)]⟩

/-- The query has no parameters. -/
def isEmpty (q : Query) : Bool :=
  q.pairs.isEmpty

/-- The number of parameters, repeated ones included. -/
def size (q : Query) : Nat :=
  q.pairs.length

/-! ## Access by name -/

/-- The first value of a name. -/
def get? (q : Query) (name : String) : Option String :=
  (q.pairs.find? (·.1 = name)).map Prod.snd

/-- Every value of a name, in order. -/
def getAll (q : Query) (name : String) : List String :=
  (q.pairs.filter (·.1 = name)).map Prod.snd

/-- The name occurs. -/
def contains (q : Query) (name : String) : Bool :=
  q.pairs.any (·.1 = name)

/-- The first value of a parameter. -/
def valueOf? (q : Query) (p : Parameter) : Option String :=
  q.get? p.name

/-- The first value of a parameter, read by its reader. -/
def typed {α : Type} (q : Query) (p : Parameter) (read : String → Except Error α) :
    Except Error (Option α) :=
  match q.valueOf? p with
  | none => .ok none
  | some text => (read text).map some

/-- The kind of data asked for. -/
def content (q : Query) : Except Error (Option Content) :=
  q.typed .content Content.parse

/-- The depth asked for. -/
def depth (q : Query) : Except Error (Option Depth) :=
  q.typed .depth Depth.parse

/-- The place of an insertion. -/
def insert (q : Query) : Except Error (Option Insert) :=
  q.typed .insert Insert.parse

/-- The treatment of defaults. -/
def withDefaults (q : Query) : Except Error (Option WithDefaults) :=
  q.typed .withDefaults WithDefaults.parse

/-- The parameters that are none of RESTCONF's. -/
def others (q : Query) : List (String × String) :=
  q.pairs.filter fun (name, _) => (Parameter.ofName? name).isNone

/-! ## Repeated parameters -/

/-- The parameters that occur more than once, in the order of `Parameter.all`. -/
def repeatedParameters (q : Query) : List Parameter :=
  Parameter.all.filter fun p => 2 ≤ (q.getAll p.name).length

/-- Refuses a query in which a parameter occurs more than once. -/
def requireUnique (q : Query) : Except Error Unit :=
  match q.repeatedParameters with
  | [] => .ok ()
  | p :: _ => .error (.repeated p)

/-! ## Reading -/

/-- The character may stand in the name of a parameter. -/
def isNameChar (c : Char) : Bool :=
  c.isAlphanum || c = '-' || c = '_' || c = '.'

/-- What is wrong with a name. -/
def nameFault? (name : List Char) : Option NameFault :=
  if name.isEmpty then some .empty
  else if name.all isNameChar then none
  else some .strayCharacter

/-- Reads `name=value` or a name alone. -/
def readPair (cs : List Char) : Except Error (String × String) :=
  let (name, value) := (cut? '=' cs).getD (cs, [])
  match nameFault? name with
  | some reason => .error (.badName (String.ofList name) reason)
  | none =>
    match Percent.decode value with
    | some decoded => .ok (String.ofList name, String.ofList decoded)
    | none => .error (.badEscape (String.ofList value))

/-- Reads each pair, up to the first that is refused. -/
def readPairs : List (List Char) → Except Error (List (String × String))
  | [] => .ok []
  | cs :: rest =>
    match readPair cs with
    | .error e => .error e
    | .ok pair => (readPairs rest).map (pair :: ·)

/-- Reads the characters of a query. Empty pairs count for nothing. -/
def read (cs : List Char) : Except Error Query :=
  (readPairs ((cs.splitOn '&').filter (!·.isEmpty))).map Query.mk

/-- Reads a query. -/
def parse (text : String) : Except Error Query :=
  read text.toList

/-! ## Writing -/

/-- One parameter; an empty value is left out together with the `=`. -/
def renderPair : String × String → List Char
  | (name, value) =>
    if value.isEmpty then name.toList
    else name.toList ++ '=' :: Percent.encode .query value.toList

/-- The characters of a query. -/
def render (q : Query) : List Char :=
  ['&'].intercalate (q.pairs.map renderPair)

instance : ToString Query := ⟨fun q => String.ofList q.render⟩

end Query

end Restconf
