import Restconf.Address.Reader
import Restconf.Document
import Restconf.Library.Basic
import Restconf.Method
import Restconf.Settings

set_option autoImplicit false

/-! # Stored values

How identifiers, methods, addresses, settings and libraries are stored in documents and read back.
Settings and library entries are written as records; both are also read from lists that give the
fields in a fixed order. Unknown fields of a record are ignored. -/

namespace Restconf

namespace Document

/-- Why a document does not hold the value that was asked for. -/
inductive Error where
  /-- The document has another shape, or lacks a field. -/
  | malformed
  | badIdentifier (reason : Identifier.Error)
  | badMethod (reason : Method.Error)
  | badPath (reason : Address.Error)
  | badLibrary (reason : Library.Error)
  deriving Repr, DecidableEq

/-- The wording of an error; the shape of a document is a matter of its format. -/
def Error.message? : Error → Option String
  | .malformed => none
  | .badIdentifier reason => some reason.message
  | .badMethod reason => some reason.message
  | .badPath reason => some reason.message
  | .badLibrary reason => some reason.message

/-! ## Texts -/

/-- Reads a text. -/
def toText : Document → Except Error String
  | text value => .ok value
  | _ => .error .malformed

/-- Reads a list of texts. -/
def toTexts : List Document → Except Error (List String)
  | [] => .ok []
  | d :: rest =>
    match d.toText with
    | .error error => .error error
    | .ok t => (toTexts rest).map (t :: ·)

/-- Reads an identifier. -/
def toIdentifier (d : Document) : Except Error Identifier :=
  match d.toText with
  | .error error => .error error
  | .ok t => (Identifier.parse t).mapError .badIdentifier

/-- Reads a method. -/
def toMethod (d : Document) : Except Error Method :=
  match d.toText with
  | .error error => .error error
  | .ok t => (Method.parse t).mapError .badMethod

/-- Reads an address. -/
def toAddress (d : Document) : Except Error Address :=
  match d.toText with
  | .error error => .error error
  | .ok t => (Address.parse? t).mapError .badPath

end Document

/-! ## Settings -/

namespace Settings

open Document (Error)

/-- Reads an optional text. -/
def textOr (usualText : String) : Option Document → Except Error String
  | none => .ok usualText
  | some d => d.toText

/-- Reads the two fields, each of which may be missing. -/
def ofFields (entryPoint defaultScheme : Option Document) : Except Error Settings :=
  match textOr usualEntryPoint entryPoint, textOr usualScheme defaultScheme with
  | .ok e, .ok s => .ok ⟨e, s⟩
  | _, _ => .error .malformed

/-- Reads settings, which are kept as they were stored. -/
def ofDocument : Document → Except Error Settings
  | .record fields =>
    ofFields (Document.field? fields "entry_point") (Document.field? fields "default_scheme")
  | .list items => if items.length ≤ 2 then ofFields items[0]? items[1]? else .error .malformed
  | _ => .error .malformed

/-- The stored form of settings. -/
def toDocument (s : Settings) : Document :=
  .record [("entry_point", .text s.givenEntryPoint), ("default_scheme", .text s.defaultScheme)]

end Settings

namespace Library

/-! ## Entries -/

namespace Entry

/-- Reads a revision, which may be missing. -/
def revisionOf : Option Document → Except Document.Error (Option Date)
  | none | some .null => .ok none
  | some (.text t) =>
    match Date.parse? .everywhere t with
    | some date => .ok (some date)
    | none => .error .malformed
  | some _ => .error .malformed

/-- Reads features, which may be missing. -/
def featuresOf : Option Document → Except Document.Error (List String)
  | none => .ok []
  | some (.list items) => Document.toTexts items
  | some _ => .error .malformed

/-- Reads the fields after the module. -/
def ofFields (module : Identifier) (revision namespaceUri : Option Document)
    (features : List String) : Except Document.Error Entry :=
  match namespaceUri.map Document.toText, revisionOf revision with
  | some (.ok uri), .ok date => .ok ⟨module, date, uri, features⟩
  | _, _ => .error .malformed

/-- Reads an entry. Of a record the features are read before the module, so a fault in them hides a
    fault in the module; of a list the module comes first. -/
def ofDocument : Document → Except Document.Error Entry
  | .record fields =>
    match featuresOf (Document.field? fields "features"), Document.field? fields "module" with
    | .ok features, some module =>
      match module.toIdentifier with
      | .error error => .error error
      | .ok m =>
        ofFields m (Document.field? fields "revision") (Document.field? fields "namespace") features
    | _, _ => .error .malformed
  | .list (module :: rest) =>
    match module.toIdentifier with
    | .error error => .error error
    | .ok m =>
      match rest with
      | [revision, namespaceUri] => ofFields m (some revision) (some namespaceUri) []
      | [revision, namespaceUri, features] =>
        match featuresOf (some features) with
        | .ok features => ofFields m (some revision) (some namespaceUri) features
        | .error error => .error error
      | _ => .error .malformed
  | _ => .error .malformed

/-- The stored form of an entry. -/
def toDocument (e : Entry) : Document :=
  .record
    [("module", .text e.module.text),
      ("revision", (e.revisionText?.map Document.text).getD .null),
      ("namespace", .text e.namespaceUri),
      ("features", .list (e.features.map .text))]

end Entry

/-! ## Libraries -/

/-- Reads entries, up to the first that is malformed. -/
def entriesOf : List Document → Except Document.Error (List Entry)
  | [] => .ok []
  | d :: rest =>
    match Entry.ofDocument d with
    | .error error => .error error
    | .ok e => (entriesOf rest).map (e :: ·)

/-- Reads a library, in which no module may repeat. -/
def ofDocument : Document → Except Document.Error Library
  | .list items =>
    match entriesOf items with
    | .error error => .error error
    | .ok entries => (empty.addAll entries).mapError .badLibrary
  | _ => .error .malformed

/-- The stored form of a library. -/
def toDocument (l : Library) : Document :=
  .list (l.entries.map Entry.toDocument)

end Library

end Restconf
