import Restconf.Proofs.Library.Loading

set_option autoImplicit false

/-! # Stored libraries read back

A library is the library of its own entries (`IsFiled.ofList_entries`), and no module comes twice
among them, so the document that lists them is read as the same library. The revision of an entry is
stored as its text, and a date of any year is read from that (`ofDocument_toDocument_of_made`). -/

namespace Restconf.Library

/-! ## The entries of a library -/

theorem IsFiled.nodup_texts {l : Library} (h : l.IsFiled) :
    (l.entries.map fun e => e.module.text).Nodup := by
  rw [List.nodup_iff_pairwise_ne]
  refine h.entries_ascending.imp ?_
  rintro a b hlt rfl
  exact String.lt_irrefl _ hlt

theorem IsFiled.nodup_modules {l : Library} (h : l.IsFiled) :
    (l.entries.map Entry.module).Nodup := by
  have htexts := h.nodup_texts
  rw [← Function.comp_def Identifier.text Entry.module, ← List.map_map] at htexts
  exact htexts.of_map

/-- **A library is made of its own entries.** -/
theorem IsFiled.ofList_entries {l : Library} (h : l.IsFiled) : ofList l.entries = l := by
  refine (isFiled_ofList l.entries).ext h fun m => Option.ext fun e => ?_
  rw [find?_ofList, find?_key_eq_some_iff h.nodup_texts, h.find?_eq_some_iff_entries]

/-! ## Stored forms -/

/-- A filed library is read from its stored form. -/
theorem IsFiled.ofDocument_toDocument {l : Library} (h : l.IsFiled) :
    ofDocument l.toDocument = .ok l :=
  (ofDocument_eq_ok_iff (entriesOf_map_toDocument l.entries)).2
    ⟨h.nodup_modules, h.ofList_entries.symm⟩

/-- The text of a revision sets the revision. -/
theorem setRevision_of_revisionText? {e : Entry} {text : String} (h : e.revisionText? = some text)
    (bare : Entry) : bare.setRevision text = .ok { bare with revision := e.revision } := by
  obtain ⟨date, hdate, rfl⟩ := Option.map_eq_some_iff.1 h
  simp only [Entry.setRevision, Date.parse?_toString, hdate]

/-- **However a library is made, it is read from its stored form as it is. The text of a revision
    gives any entry the date of that revision, whatever its year.** -/
theorem ofDocument_toDocument_of_made :
    (∀ l : Library, l.Made → ofDocument l.toDocument = .ok l) ∧
    ∀ (e : Entry) (text : String), e.revisionText? = some text → ∀ bare : Entry,
      bare.setRevision text = .ok { bare with revision := e.revision } :=
  ⟨fun _ hl => hl.isFiled.ofDocument_toDocument, fun _ _ h => setRevision_of_revisionText? h⟩

theorem ofDocument_toDocument_of_made_signedYears :
    let b : Entry := ⟨⟨"b", by decide⟩, some ⟨12345, 2, 28, by decide⟩, "urn:b", ["y", "x"]⟩
    let a : Entry := ⟨⟨"a", by decide⟩, some ⟨-4, 2, 29, by decide⟩, "urn:a", []⟩
    let bare : Entry := ⟨⟨"c", by decide⟩, none, "urn:c", ["z"]⟩
    ofDocument ((ofList [b, bare]).addNew a).toDocument = .ok ((ofList [b, bare]).addNew a) ∧
    b.revisionText? = some "+12345-02-28" ∧ a.revisionText? = some "-0004-02-29" ∧
    bare.setRevision "+12345-02-28" = .ok { bare with revision := b.revision } ∧
    bare.setRevision "-0004-02-29" = .ok { bare with revision := a.revision } := by
  intro b a bare
  obtain ⟨hstored, hrevision⟩ := ofDocument_toDocument_of_made
  have hb : b.revisionText? = some "+12345-02-28" := by decide +kernel
  have ha : a.revisionText? = some "-0004-02-29" := by decide +kernel
  exact ⟨hstored _ (.addNew a (.ofList [b, bare])), hb, ha, hrevision b _ hb bare,
    hrevision a _ ha bare⟩

end Restconf.Library
