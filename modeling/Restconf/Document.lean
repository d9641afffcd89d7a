set_option autoImplicit false

/-! # Structured documents

Settings and schema libraries are stored in a format with lists and named fields. This type is the
content of such a document; what its text looks like is left to the format. No number is ever
stored, so a number has no content here. -/

namespace Restconf

/-- A value of a stored document. -/
inductive Document where
  | null
  | boolean (value : Bool)
  | number
  | text (value : String)
  | list (items : List Document)
  /-- Named fields, each name once. -/
  | record (fields : List (String × Document))
  deriving Inhabited

namespace Document

/-- The field of a name in a list of fields. -/
def field? (fields : List (String × Document)) (name : String) : Option Document :=
  (fields.find? (·.1 = name)).map Prod.snd

end Document

end Restconf
