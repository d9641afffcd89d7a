import Restconf.Proofs.Identifier
import Restconf.Proofs.Key.Refused
import Restconf.Proofs.ListInstance.Marks

set_option autoImplicit false

/-! # Why the keys of an entry are refused

Once the name of an entry is valid and its keys are spelled out, only three things can be wrong:
quotes that stay open, something after quotes that close, and a boolean in an odd letter case.
`parse_eq_error_iff_faultAt` says that the error is about the first key that has one of these, and
that the place it names counts decoded characters. -/

namespace Restconf.ListInstance

open Text (Utf8.encode)
open Text.Percent (Spells SpellsBytes EscapesComplete decodeWithMarks)
open Key (comma ReadUpTo FaultAt)

/-- After a valid name, an entry is refused just if its key list is. -/
theorem read_eq_error_iff {scope : ModuleScope} {name : Identifier} {raw : List Char} {e : Error} :
    read scope (name.chars ++ '=' :: raw) = .error e ↔ Key.readAll raw = .error e := by
  have hname : '=' ∉ name.chars := Identifier.not_mem_chars (by decide)
  rw [read_append_cons scope hname, Identifier.parse_ofList_chars]
  exact Except.map_eq_error_iff

/-- **A segment with a valid name and a key list that is spelled out is refused just for its first
    key at fault. The key starts where the list does or after a literal comma, the keys before it
    are read, and the error names what is wrong with it and where in the decoded characters.** -/
theorem parse_eq_error_iff_faultAt (module : Option Identifier) (segment : String)
    (name raw : List Char) (hsegment : segment.toList = name ++ '=' :: raw)
    (hname : Identifier.WellFormed name) (hraw : raw ≠ []) (hescapes : EscapesComplete raw)
    (hutf8 : ∃ cs, SpellsBytes raw (Utf8.encode cs)) :
    ∃ d, Spells raw d ∧ ∀ e, parse module segment = .error e ↔
      ∃ s, (s = 0 ∨ ∃ i, s = i + 1 ∧ d[i]? = some comma) ∧ ReadUpTo d s ∧ FaultAt d s e := by
  obtain ⟨id, rfl⟩ := Identifier.exists_chars_eq_iff.2 hname
  obtain ⟨d, hd⟩ := Text.Percent.exists_spells_iff.2 ⟨hescapes, hutf8⟩
  refine ⟨d, hd, fun e => ?_⟩
  rw [parse, hsegment, read_eq_error_iff, Key.readAll_eq_error_iff hraw hd]
  constructor
  · rintro ⟨s, hread, hfault⟩
    exact ⟨s, hread.eq_zero_or_comma, hread, hfault⟩
  · rintro ⟨s, -, hread, hfault⟩
    exact ⟨s, hread, hfault⟩

/-- The first key is empty. The quotes of the second one hold a guarded mark and an escaped comma,
    and its fault hides the odd boolean after it. -/
theorem parse_eq_error_iff_faultAt_guardedMark :
    parse none "l=,'a%5C'%2C'x,TRUE" = .error (.afterQuote 'x' 7) ∧
    ∃ d s, Spells ",'a%5C'%2C'x,TRUE".toList d ∧
      (s = 0 ∨ ∃ i, s = i + 1 ∧ d[i]? = some comma) ∧ ReadUpTo d s ∧
        FaultAt d s (.afterQuote 'x' 7) := by
  have hparse : parse none "l=,'a%5C'%2C'x,TRUE" = .error (.afterQuote 'x' 7) := by decide +kernel
  have hname : Identifier.WellFormed ['l'] := ⟨'l', [], rfl, by decide, by simp⟩
  have hdecode : (decodeWithMarks ",'a%5C'%2C'x,TRUE".toList).isSome = true := by decide +kernel
  obtain ⟨ms, hms⟩ := Option.isSome_iff_exists.1 hdecode
  obtain ⟨hescapes, hutf8⟩ :=
    Text.Percent.exists_spells_iff.1 ⟨ms, Text.Percent.decodeWithMarks_eq_some_iff.1 hms⟩
  obtain ⟨d, hd, herror⟩ := parse_eq_error_iff_faultAt none "l=,'a%5C'%2C'x,TRUE" ['l']
    ",'a%5C'%2C'x,TRUE".toList (by decide +kernel) hname (by decide +kernel) hescapes hutf8
  obtain ⟨s, hstart, hread, hfault⟩ := (herror _).1 hparse
  exact ⟨hparse, d, s, hd, hstart, hread, hfault⟩

end Restconf.ListInstance
