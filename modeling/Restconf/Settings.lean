import Restconf.Text.Case
import Restconf.Text.Cut

set_option autoImplicit false

/-! # Server settings

A server has an entry point below which its resources lie and a scheme for requests that name
none. The setters normalise what they are given; settings that were stored elsewhere are kept as
they came. -/

namespace Restconf

/-- The settings of a server. -/
structure Settings where
  /-- The entry point as it was given, possibly with slashes at its ends. -/
  givenEntryPoint : String
  /-- The scheme of requests that name none. -/
  defaultScheme : String
  deriving Repr, DecidableEq

namespace Settings

/-- The entry point of a server that chose no other. -/
def usualEntryPoint : String := "restconf"

/-- The default scheme of a server that chose no other. -/
def usualScheme : String := "http"

/-- The schemes that a request may have. -/
def allowedSchemes : List String := ["http", "https"]

/-- The settings of a server that chose nothing. -/
def usual : Settings :=
  ⟨usualEntryPoint, usualScheme⟩

/-- The settings with another entry point. -/
def setEntryPoint (s : Settings) (entryPoint : String) : Settings :=
  { s with givenEntryPoint := Text.trimSlashes entryPoint }

/-- The settings with another default scheme. -/
def setDefaultScheme (s : Settings) (scheme : String) : Settings :=
  { s with defaultScheme := Text.lower scheme }

/-- The entry point without slashes at its ends. -/
def entryPoint (s : Settings) : String :=
  Text.trimSlashes s.givenEntryPoint

/-- The path of the entry point. -/
def entryPath (s : Settings) : String :=
  "/" ++ s.entryPoint

/-- The settings that the setters make of the same entry point and scheme. -/
def normalized (s : Settings) : Settings :=
  (usual.setEntryPoint s.entryPoint).setDefaultScheme s.defaultScheme

end Settings

end Restconf
