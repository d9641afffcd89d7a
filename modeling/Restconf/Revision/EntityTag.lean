import Restconf.Revision.Uuid
import Restconf.Text.Blank

set_option autoImplicit false

/-! # Entity tags

The state of a resource is named by an entity tag, a UUID in double quotes. Conditional requests
list the tags they are about, divided by commas; `isListedIn` asks whether a tag is among them.

Clients may list what they like, so a fresh tag must not be one that they can foresee: a request
about a state that its client never saw would pass. Fresh tags are scattered from a seed that
clients do not know, and `Supply.seeded_inj` says that among `2 ^ 122` of them none comes twice. -/

namespace Restconf

/-- The tag of one state of a resource. -/
structure EntityTag where
  uuid : Uuid
  deriving Repr, DecidableEq

namespace EntityTag

open Text

/-- The tag as the value of a header. -/
def render (t : EntityTag) : List Char :=
  '\x22' :: t.uuid.render ++ ['\x22']

instance : ToString EntityTag := ⟨fun t => String.ofList t.render⟩

/-- The candidate without the mark of a weak tag. -/
def dropWeak : List Char → List Char
  | 'W' :: '/' :: cs => cs
  | cs => cs

/-- The UUID of a candidate, with or without quotes. -/
def candidate? (cs : List Char) : Option Uuid :=
  Uuid.parse? (trim (· = '\x22') (dropWeak cs))

/-- The candidate, surrounded by any white space, is a star or names this tag. -/
def isNamedBy (t : EntityTag) (candidate : List Char) : Bool :=
  let cs := trimBlank candidate
  cs = ['*'] || candidate? cs = some t.uuid

/-- One of the candidates in the header names this tag. -/
def isListedIn (t : EntityTag) (header : String) : Bool :=
  (header.toList.splitOn ',').any t.isNamedBy

/-! ## Fresh tags -/

/-- A supply of tags, by the number of tags taken from it before. -/
abbrev Supply := Nat → EntityTag

namespace Supply

/-- An odd number near the golden section of `2 ^ 122`. Multiplication by it scatters neighbouring
    numbers over all payloads. -/
def scatter : Nat := 0x278dde6e5fd29f057ce73018173b721

/-- The inverse of `scatter` modulo `2 ^ 122`. -/
def gather : Nat := 0x1d3de3be375c1c5ba4b1f99ba668ce1

/-- The supply of a seed. -/
def seeded (seed : Nat) : Supply := fun n =>
  ⟨Uuid.ofPayload (scatter * (seed + n))⟩

theorem gather_scatter (n : Nat) : gather * (scatter * n % 2 ^ 122) % 2 ^ 122 = n % 2 ^ 122 := by
  rw [Nat.mul_mod, Nat.mod_mod, ← Nat.mul_mod, ← Nat.mul_assoc, Nat.mul_mod]
  simp [gather, scatter]

theorem seeded_inj {seed i j : Nat} (hi : i < 2 ^ 122) (hj : j < 2 ^ 122)
    (h : seeded seed i = seeded seed j) : i = j := by
  have hp : scatter * (seed + i) % 2 ^ 122 = scatter * (seed + j) % 2 ^ 122 := by
    simpa only [seeded, Uuid.payload_ofPayload] using congrArg (·.uuid.payload) h
  have hs : (seed + i) % 2 ^ 122 = (seed + j) % 2 ^ 122 := by
    rw [← gather_scatter, hp, gather_scatter]
  omega

end Supply

end EntityTag

end Restconf
