import Restconf.Text.Cut

set_option autoImplicit false

/-! # Request targets

A request names its target as a full URL, as a URL without scheme, as host and path, or as a path
alone. The parts are cut off from the outside in: the fragment, the query, the scheme, the host.

`host:8080/path` has no scheme although what stands before the colon looks like one: a digit right
after the colon starts a port. -/

namespace Restconf

/-- The parts of a request target. -/
structure Url where
  scheme : Option (List Char)
  host : Option (List Char)
  path : List Char
  query : List Char
  deriving Repr, DecidableEq

namespace Url

open Text

/-- The text is a scheme. -/
def isScheme : List Char → Bool
  | [] => false
  | c :: cs => c.isAlpha && (c :: cs).all fun x => x.isAlphanum || x = '+' || x = '-' || x = '.'

/-- The text after a colon starts with a port. -/
def opensPort : List Char → Bool
  | [] => false
  | c :: _ => c.isDigit

/-- Whether the text starts with `//`, and what follows. -/
def afterSlashes? : List Char → Option (List Char)
  | '/' :: '/' :: rest => some rest
  | _ => none

/-- The scheme, if there is one, and the rest. -/
def splitScheme (target : List Char) : Option (List Char) × List Char :=
  match cut? ':' target with
  | none => (none, target)
  | some (candidate, rest) =>
    if isScheme candidate && !opensPort rest then (some candidate, rest) else (none, target)

/-- The text up to its first slash as a host, if there is any, and the path from that slash on. -/
def splitHost (cs : List Char) : Option (List Char) × List Char :=
  let host := before '/' cs
  (if host.isEmpty then none else some host, cs.dropWhile (· ≠ '/'))

/-- The host, if there is one, and the path. Without a scheme the host may come without slashes in
    front. -/
def splitAuthority (hasScheme : Bool) (rest : List Char) : Option (List Char) × List Char :=
  match afterSlashes? rest with
  | some authority => splitHost authority
  | none => if !hasScheme && rest.head? ≠ some '/' then splitHost rest else (none, rest)

/-- The parts of a request target. -/
def split (url : List Char) : Url :=
  let url := before '#' url
  let (target, query) := (cut? '?' url).getD (url, [])
  let (scheme, rest) := splitScheme target
  let (host, path) := splitAuthority scheme.isSome rest
  ⟨scheme, host, path, query⟩

/-- What follows the entry point in a path. The entry point ends at the end of the path or at a
    slash, and an empty one is in front of every path. -/
def below? (entryPoint path : List Char) : Option (List Char) :=
  if entryPoint.isEmpty then some path
  else
    match ('/' :: entryPoint).isPrefixOf? path with
    | some [] => some []
    | some ('/' :: rest) => some ('/' :: rest)
    | _ => none

end Url

end Restconf
