import Restconf.Proofs.Calendar
import Restconf.Proofs.Library.Files
import Restconf.Stored

set_option autoImplicit false

/-! # Ways to load a library

A library is loaded by additions one after the other, from a list of entries, or from a stored
document; they differ in what they do about a module that comes a second time. All of them keep the
library filed (`Made.isFiled`) and agree on which entry a module gets, so a list of entries without
repeated modules makes one library, in whatever way and order it is loaded
(`ofList_loads_firsts`). -/

namespace Restconf.Library

/-! ## Stored entries -/

theorem toTexts_map_text (texts : List String) :
    Document.toTexts (texts.map Document.text) = .ok texts := by
  induction texts with
  | nil => rfl
  | cons t texts ih =>
      rw [List.map_cons, Document.toTexts, ih]
      rfl

theorem revisionOf_stored (e : Entry) :
    Entry.revisionOf (some ((e.revisionText?.map Document.text).getD .null)) = .ok e.revision := by
  unfold Entry.revisionText?
  cases e.revision with
  | none => rfl
  | some date =>
      simp only [Option.map_some, Option.getD_some, Entry.revisionOf, Date.parse?_toString]

theorem toIdentifier_text (m : Identifier) :
    (Document.text m.text).toIdentifier = .ok m := by
  simp only [Document.toIdentifier, Document.toText, Identifier.parse_text]
  rfl

/-- **An entry is read from its stored form.** -/
theorem ofDocument_toDocument (e : Entry) : Entry.ofDocument e.toDocument = .ok e := by
  obtain ⟨module, revision, uri, features⟩ := e
  have hfeatures : Entry.featuresOf (some (.list (features.map .text))) = .ok features :=
    toTexts_map_text features
  have hrevision := revisionOf_stored ⟨module, revision, uri, features⟩
  simp [Entry.toDocument, Entry.ofDocument, Document.field?, hfeatures, toIdentifier_text,
    Entry.ofFields, hrevision, Document.toText]

theorem entriesOf_map_toDocument (entries : List Entry) :
    entriesOf (entries.map Entry.toDocument) = .ok entries := by
  induction entries with
  | nil => rfl
  | cons e entries ih =>
      rw [List.map_cons, entriesOf, ofDocument_toDocument, ih]
      rfl

/-! ## One addition after the other -/

/-- The library after every entry in turn was added or refused, and what came of each. -/
def addEach (l : Library) : List Entry → Library × List (Except Error Unit)
  | [] => (l, [])
  | e :: rest =>
    match l.add e with
    | .ok grown => ((grown.addEach rest).1, .ok () :: (grown.addEach rest).2)
    | .error error => ((l.addEach rest).1, .error error :: (l.addEach rest).2)

theorem addEach_fst (l : Library) (entries : List Entry) :
    (l.addEach entries).1 = entries.foldl addNew l := by
  induction entries generalizing l with
  | nil => rfl
  | cons e entries ih =>
      rw [List.foldl_cons, addEach]
      rcases addNew_cases l e with ⟨-, hadd, -⟩ | ⟨-, hadd, hnew⟩
      · rw [hadd]
        exact ih (l.addNew e)
      · rw [hadd, hnew]
        exact ih l

/-- What comes of an addition depends on what was added before. -/
theorem addEach_append_cons (l : Library) (before : List Entry) (e : Entry) (after : List Entry) :
    (l.addEach (before ++ e :: after)).2[before.length]? =
      some (((before.foldl addNew l).add e).map fun _ => ()) := by
  induction before generalizing l with
  | nil =>
      rw [List.nil_append, addEach]
      rcases addNew_cases l e with ⟨-, hadd, -⟩ | ⟨-, hadd, -⟩
      · simp [hadd, Except.map]
      · simp [hadd, Except.map]
  | cons f before ih =>
      rw [List.cons_append, addEach, List.foldl_cons]
      rcases addNew_cases l f with ⟨-, hadd, -⟩ | ⟨-, hadd, hnew⟩
      · rw [hadd, ← ih]
        simp
      · rw [hadd, hnew, ← ih]
        simp

theorem length_addEach (l : Library) (entries : List Entry) :
    (l.addEach entries).2.length = entries.length := by
  induction entries generalizing l with
  | nil => rfl
  | cons e entries ih =>
      rw [addEach]
      cases l.add e with
      | ok grown => simp [ih]
      | error error => simp [ih]

/-- A refused addition leaves the library as it is for the additions after it. -/
theorem addEach_append_of_refused {l : Library} {e : Entry} {error : Error}
    (before after : List Entry) (h : (l.addEach before).1.add e = .error error) :
    (l.addEach (before ++ e :: after)).1 = (l.addEach (before ++ after)).1 := by
  induction before generalizing l with
  | nil =>
      replace h : l.add e = .error error := h
      rw [List.nil_append, List.nil_append, addEach, h]
  | cons f before ih =>
      rw [addEach] at h
      rw [List.cons_append, List.cons_append, addEach, addEach]
      cases hadd : l.add f with
      | ok grown =>
          rw [hadd] at h
          exact ih h
      | error refusal =>
          rw [hadd] at h
          exact ih h

/-- The module of an entry is there if an entry before it has the same. -/
theorem find?_ofList_eq_none_iff (entries : List Entry) (module : Identifier) :
    (ofList entries).find? module.text = none ↔ module ∉ entries.map Entry.module := by
  rw [find?_ofList, List.find?_eq_none, List.mem_map]
  constructor
  · rintro h ⟨e, he, rfl⟩
    exact h e he (decide_eq_true rfl)
  · intro h e he heq
    exact h ⟨e, he, Identifier.ext (of_decide_eq_true heq)⟩

theorem add_ofList (before : List Entry) (e : Entry) :
    ((ofList before).add e).map (fun _ => ()) =
      if e.module ∈ before.map Entry.module then .error (.repeatedModule e.module.text)
      else .ok () := by
  rcases addNew_cases (ofList before) e with ⟨hfound, hadd, -⟩ | ⟨hfound, hadd, -⟩
  · rw [find?_ofList_eq_none_iff] at hfound
    rw [hadd, if_neg hfound]
    rfl
  · rw [ne_eq, find?_ofList_eq_none_iff, not_not] at hfound
    rw [hadd, if_pos hfound]
    rfl

/-! ## All or nothing -/

/-- Entries are added all together if their modules are new and no two are the same. -/
theorem addAll_eq_ok_iff {l l' : Library} {entries : List Entry} :
    l.addAll entries = .ok l' ↔
      (∀ e ∈ entries, l.find? e.module.text = none) ∧ (entries.map Entry.module).Nodup ∧
        l' = entries.foldl addNew l := by
  induction entries generalizing l with
  | nil => simp [addAll, eq_comm]
  | cons e entries ih =>
      rw [addAll, List.forall_mem_cons, List.map_cons, List.nodup_cons, List.foldl_cons]
      rcases addNew_cases l e with ⟨hfound, hadd, -⟩ | ⟨hfound, hadd, -⟩
      · -- an entry further on is new for the grown library if it is new and not the one just added
        have hgrown : (∀ f ∈ entries, (l.addNew e).find? f.module.text = none) ↔
            (∀ f ∈ entries, l.find? f.module.text = none) ∧
              e.module ∉ entries.map Entry.module := by
          simp only [find?_addNew, Option.or_eq_none_iff, List.mem_map, not_exists, not_and]
          constructor
          · intro h
            refine ⟨fun f hf => (h f hf).1, fun f hf heq => ?_⟩
            have hnone := (h f hf).2
            rw [if_pos (congrArg Identifier.text heq.symm)] at hnone
            exact absurd hnone (by simp)
          · rintro ⟨hnew, hother⟩ f hf
            refine ⟨hnew f hf, if_neg fun heq => ?_⟩
            exact hother f hf (Identifier.ext heq.symm)
        rw [hadd]
        simp only [ih, hgrown, hfound, true_and, and_assoc]
      · rw [hadd]
        simp [hfound]

theorem ofDocument_eq_ok_iff {items : List Document} {entries : List Entry}
    (hitems : entriesOf items = .ok entries) {l : Library} :
    ofDocument (.list items) = .ok l ↔ (entries.map Entry.module).Nodup ∧ l = ofList entries := by
  have hall : ofDocument (.list items) = .ok l ↔ empty.addAll entries = .ok l := by
    simp only [ofDocument, hitems]
    cases empty.addAll entries with
    | ok grown => simp [Except.mapError]
    | error error => simp [Except.mapError]
  rw [hall, addAll_eq_ok_iff]
  exact and_iff_right fun e _ => rfl

/-! ## Libraries as they are made -/

/-- The library comes about by additions, refused or not, from a list of entries or from a stored
    document. -/
inductive Made : Library → Prop
  | empty : Made empty
  | addNew {l : Library} (e : Entry) : Made l → Made (l.addNew e)
  | ofList (entries : List Entry) : Made (ofList entries)
  | ofDocument {d : Document} {l : Library} : ofDocument d = .ok l → Made l

/-- **However a library is made, it is filed.** -/
theorem Made.isFiled {l : Library} (h : l.Made) : l.IsFiled := by
  induction h with
  | empty => exact isFiled_empty
  | addNew e _ ih => exact ih.addNew e
  | ofList entries => exact isFiled_ofList entries
  | @ofDocument d l hread =>
      cases d with
      | list items =>
          cases hitems : entriesOf items with
          | error error => simp [Library.ofDocument, hitems] at hread
          | ok entries =>
              rw [((ofDocument_eq_ok_iff hitems).1 hread).2]
              exact isFiled_ofList entries
      | null | boolean _ | number | text _ | record _ => simp [Library.ofDocument] at hread

/-! ## Orders of entries -/

/-- Entries of different modules make the same library in any order. -/
theorem ofList_perm {entries entries' : List Entry} (hperm : entries.Perm entries')
    (hnodup : (entries.map Entry.module).Nodup) : ofList entries' = ofList entries := by
  refine (isFiled_ofList entries').ext (isFiled_ofList entries) fun m => ?_
  have hnames : ∀ es : List Entry, (es.map Entry.module).Nodup →
      (es.map fun e => e.module.text).Nodup := by
    intro es hes
    have htext : Function.Injective Identifier.text := fun _ _ h => Identifier.ext h
    have htexts := hes.map htext
    rw [List.map_map] at htexts
    exact htexts
  have hnodup' : (entries'.map Entry.module).Nodup := (hperm.map _).nodup_iff.1 hnodup
  rw [find?_ofList, find?_ofList]
  refine Option.ext fun e => ?_
  rw [find?_key_eq_some_iff (hnames _ hnodup'), find?_key_eq_some_iff (hnames _ hnodup),
    hperm.mem_iff]

/-- **However a library is made, its entries are in ascending order and filed under their own
    modules, and a refused addition leaves it as it is, both by itself and for the additions after
    it. A list of entries makes the library of the first entry of each module, whether it is taken
    as a whole or added entry by entry, where just the repeated modules are refused. As a stored
    document it makes the same library if no module repeats and is refused otherwise, and if no
    module repeats the order makes no difference.** -/
theorem ofList_loads_firsts :
    (∀ l : Library, l.Made →
      (l.entries.map fun e => e.module.text).Pairwise (· < ·) ∧
      (∀ file ∈ l.files, file.2.module = file.1) ∧
      (∀ before e after error, (l.addEach before).1.add e = .error error →
        (l.addEach (before ++ e :: after)).1 = (l.addEach (before ++ after)).1) ∧
      ∀ e error, l.add e = .error error → l.addNew e = l) ∧
    ∀ entries : List Entry,
      (∀ m, (ofList entries).find? m = entries.find? (·.module.text = m)) ∧
      (empty.addEach entries).1 = ofList entries ∧
      (empty.addEach entries).2.length = entries.length ∧
      (∀ (before : List Entry) (e : Entry) (after : List Entry), entries = before ++ e :: after →
        (empty.addEach entries).2[before.length]? = some
          (if e.module ∈ before.map Entry.module then .error (.repeatedModule e.module.text)
          else .ok ())) ∧
      entriesOf (entries.map Entry.toDocument) = .ok entries ∧
      (∀ items, entriesOf items = .ok entries → ∀ l,
        (ofDocument (.list items) = .ok l ↔
          (entries.map Entry.module).Nodup ∧ l = ofList entries)) ∧
      ((entries.map Entry.module).Nodup →
        ∀ entries', entries.Perm entries' → ofList entries' = ofList entries) := by
  refine ⟨?_, ?_⟩
  · intro l hl
    refine ⟨hl.isFiled.entries_ascending, hl.isFiled.own,
      fun before e after error herror => addEach_append_of_refused before after herror, ?_⟩
    intro e error herror
    -- a single addition is a row of one, and the row without it adds nothing
    have hrow : (l.addEach [e]).1 = (l.addEach []).1 :=
      addEach_append_of_refused [] [] herror
    rwa [addEach_fst, addEach_fst] at hrow
  · intro entries
    refine ⟨find?_ofList entries, addEach_fst _ _, length_addEach _ _, ?_,
      entriesOf_map_toDocument entries, fun items hitems l => ofDocument_eq_ok_iff hitems,
      fun hnodup entries' hperm => ofList_perm hperm hnodup⟩
    rintro before e after rfl
    rw [addEach_append_cons]
    exact congrArg some (add_ofList before e)

/-- A module that comes a second time, with another module between and after it. -/
theorem ofList_loads_firsts_repeatedModule :
    let b : Entry := ⟨⟨"b", by decide⟩, none, "urn:b", []⟩
    let a : Entry := ⟨⟨"a", by decide⟩, none, "urn:a", []⟩
    let c : Entry := ⟨⟨"c", by decide⟩, none, "urn:c", []⟩
    let later : Entry := ⟨⟨"b", by decide⟩, none, "urn:later", []⟩
    ((ofList [b, a, later]).entries.map fun e => e.module.text).Pairwise (· < ·) ∧
    (empty.addEach [b, a, later, c]).1 = (empty.addEach [b, a, c]).1 ∧
    (ofList [b, a, later]).addNew later = ofList [b, a, later] ∧
    (empty.addEach [b, a, later]).2[2]? = some (.error (.repeatedModule "b")) ∧
    (∀ l, ofDocument (.list ([b, a, later].map Entry.toDocument)) ≠ .ok l) ∧
    ofDocument (.list ([b, a].map Entry.toDocument)) = .ok (ofList [b, a]) ∧
    ofList [a, b] = ofList [b, a] := by
  intro b a c later
  obtain ⟨hascending, -, -, hrefused⟩ := ofList_loads_firsts.1 (ofList [b, a, later]) (.ofList _)
  obtain ⟨-, -, hkept, -⟩ := ofList_loads_firsts.1 empty .empty
  obtain ⟨-, -, -, houtcome, hread, hdocument, -⟩ := ofList_loads_firsts.2 [b, a, later]
  obtain ⟨-, -, -, -, hread', hdocument', horder⟩ := ofList_loads_firsts.2 [b, a]
  have hdistinct : ([b, a].map Entry.module).Nodup := by decide
  refine ⟨hascending, hkept [b, a] later [c] (.repeatedModule "b") (by decide),
    hrefused later (.repeatedModule "b") (by decide), houtcome [b, a] later [] rfl,
    fun l hl => ?_, ?_, horder hdistinct _ (.swap a b [])⟩
  · exact absurd ((hdocument _ hread l).1 hl).1 (by decide)
  · exact (hdocument' _ hread' _).2 ⟨hdistinct, rfl⟩

end Restconf.Library
