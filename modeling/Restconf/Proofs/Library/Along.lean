import Restconf.Proofs.Address.Modules
import Restconf.Proofs.Library.Loading

set_option autoImplicit false

/-! # Modules along an address in a library

The modules of an address are looked up in the order in which they come first along the path, up to
the first that the library does not have. That is also the first one along the path
(`entriesAlong_eq_error_iff`), and if there is none each module has its entry
(`entriesAlong_eq_ok_iff`). -/

namespace Restconf.Library

/-! ## Many modules -/

theorem get_eq_ok_iff {l : Library} {m : String} {e : Entry} :
    l.get m = .ok e ↔ l.find? m = some e := by
  rw [get]
  cases l.find? m with
  | none => simp
  | some f => simp

theorem get_eq_error_iff {l : Library} {m : String} {error : Error} :
    l.get m = .error error ↔ l.contains m = false ∧ error = .unknownModule m := by
  rw [get, contains]
  cases l.find? m with
  | none => simp [eq_comm]
  | some f => simp

theorem getAll_eq_ok_iff {l : Library} {ms : List Identifier} {es : List Entry} :
    l.getAll ms = .ok es ↔ ms.map (fun m => l.find? m.text) = es.map some := by
  induction ms generalizing es with
  | nil => cases es <;> simp [getAll]
  | cons m ms ih =>
      rw [getAll, List.map_cons]
      cases hget : l.get m.text with
      | error error =>
          have hnone : l.find? m.text = none := by
            simpa [contains] using (get_eq_error_iff.1 hget).1
          rw [hnone]
          cases es <;> simp
      | ok e =>
          rw [get_eq_ok_iff.1 hget, Except.map_eq_ok_iff]
          cases es with
          | nil => simp
          | cons f es => simp [ih, and_comm]

/-- A lookup of many modules fails for the first that is not there. -/
theorem getAll_eq_error_iff {l : Library} {ms : List Identifier} {error : Error} :
    l.getAll ms = .error error ↔
      ∃ m, ms.find? (fun m => !l.contains m.text) = some m ∧ error = .unknownModule m.text := by
  induction ms with
  | nil => simp [getAll]
  | cons m ms ih =>
      rw [getAll, List.find?_cons]
      cases hget : l.get m.text with
      | error fault =>
          obtain ⟨hnot, rfl⟩ := get_eq_error_iff.1 hget
          simp [hnot, eq_comm]
      | ok e =>
          have hthere : l.contains m.text = true := by
            rw [contains, get_eq_ok_iff.1 hget]
            rfl
          simp only [Except.map_eq_error_iff, ih, hthere, Bool.not_true]

/-! ## The modules of an address -/

theorem entriesAlong_eq_ok_iff {l : Library} {a : Address} {es : List Entry} :
    l.entriesAlong a = .ok es ↔ a.modules.map (fun m => l.find? m.text) = es.map some :=
  getAll_eq_ok_iff

theorem entriesAlong_eq_error_iff {l : Library} {a : Address} {error : Error} :
    l.entriesAlong a = .error error ↔
      ∃ m, (a.segments.filterMap Segment.module?).find? (fun m => !l.contains m.text) = some m ∧
        error = .unknownModule m.text := by
  rw [← Address.find?_firsts]
  exact getAll_eq_error_iff

theorem exists_entriesAlong_iff {l : Library} {a : Address} :
    (∃ es, l.entriesAlong a = .ok es) ↔ ∀ m ∈ a.modules, l.contains m.text = true := by
  constructor
  · rintro ⟨es, hes⟩ m hm
    have hfound : l.find? m.text ∈ es.map some := by
      rw [← entriesAlong_eq_ok_iff.1 hes]
      exact List.mem_map_of_mem hm
    obtain ⟨e, -, he⟩ := List.mem_map.1 hfound
    rw [contains, ← he]
    rfl
  · intro hall
    cases hresult : l.entriesAlong a with
    | ok es => exact ⟨es, rfl⟩
    | error error =>
        obtain ⟨m, hfirst, -⟩ := getAll_eq_error_iff.1 hresult
        have hnot : l.contains m.text = false := by simpa using List.find?_some hfirst
        rw [hall m (List.mem_of_find?_eq_some hfirst)] at hnot
        exact absurd hnot (by decide)

/-- In a library that was made, the entry of a module is its own. -/
theorem Made.map_module_entriesAlong {l : Library} (hl : l.Made) {a : Address} {es : List Entry}
    (h : l.entriesAlong a = .ok es) : es.map Entry.module = a.modules := by
  -- the lookups say all that is needed, for any list of modules
  have hfound := entriesAlong_eq_ok_iff.1 h
  clear h
  generalize a.modules = ms at hfound ⊢
  induction ms generalizing es with
  | nil =>
      obtain rfl := List.map_eq_nil_iff.1 hfound.symm
      rfl
  | cons m ms ih =>
      cases es with
      | nil => exact absurd hfound (by simp)
      | cons e es =>
          obtain ⟨hfirst, hrest⟩ := List.cons.inj hfound
          have hown := (hl.isFiled.find?_eq_some_iff_entries.1 hfirst).2
          rw [List.map_cons, ih hrest, Identifier.ext hown]

/-- **The groups of a path are in ascending order of names. There is one for each module of a
    segment, and one without a name if a segment has none; it has the forms of its segments in path
    order. The modules of the path are the named groups, each once, in order of first appearance. In
    a library they have their entries in this order, or the first along the path that is not there
    is reported.** -/
theorem entriesAlong_agrees_modules (a : Address) :
    (a.formsByModule.map Prod.fst).Pairwise (· < ·) ∧
    (∀ name forms, (name, forms) ∈ a.formsByModule ↔
      ∃ s ∈ a.segments, (s.module?.map Identifier.text).getD "" = name ∧
        forms = (a.segments.filter (·.module? = s.module?)).map Segment.withoutModule) ∧
    a.modules.Nodup ∧
    (∀ name, name ∈ a.modules.map Identifier.text ↔
      name ∈ a.formsByModule.map Prod.fst ∧ name ≠ "") ∧
    (a.modules.Pairwise fun m n =>
      (a.segments.filterMap Segment.module?).idxOf m <
        (a.segments.filterMap Segment.module?).idxOf n) ∧
    ∀ l : Library,
      ((∃ es, l.entriesAlong a = .ok es) ↔ ∀ m ∈ a.modules, l.contains m.text = true) ∧
      (∀ es, l.entriesAlong a = .ok es ↔ a.modules.map (fun m => l.find? m.text) = es.map some) ∧
      (∀ error, l.entriesAlong a = .error error ↔
        ∃ m, (a.segments.filterMap Segment.module?).find? (fun m => !l.contains m.text) = some m ∧
          error = .unknownModule m.text) ∧
      (l.Made → ∀ es, l.entriesAlong a = .ok es → es.map Entry.module = a.modules) := by
  refine ⟨List.pairwise_map.2 (Address.ascending_grouped a.segments), fun name forms => ?_,
    Address.nodup_firsts _, fun name => Address.mem_map_text_modules_iff,
    Address.firsts_inOrder _, fun l => ⟨exists_entriesAlong_iff, fun es => entriesAlong_eq_ok_iff,
      fun error => entriesAlong_eq_error_iff, fun hl es => hl.map_module_entriesAlong⟩⟩
  rw [Address.mem_formsByModule_iff]
  refine exists_congr fun s => and_congr_right fun _ => and_congr_right ?_
  rintro rfl
  simp only [Address.formsOf, Address.groupOf_eq_iff]

theorem entriesAlong_agrees_modules_switchedModule :
    let x : Entry := ⟨⟨"x", by decide⟩, none, "urn:x", []⟩
    let y : Entry := ⟨⟨"y", by decide⟩, none, "urn:y", []⟩
    let a := Address.parse "/x:a/y:b=1/c/x:d"
    a.modules.map Identifier.text = ["x", "y"] ∧
    ("x", ["a", "d"]) ∈ a.formsByModule ∧
    (Library.ofList [y, x]).entriesAlong a = .ok [x, y] ∧
    [x, y].map Entry.module = a.modules ∧
    (Library.ofList [x]).entriesAlong a = .error (.unknownModule "y") := by
  intro x y a
  obtain ⟨-, hgroups, -, -, -, hlibrary⟩ := entriesAlong_agrees_modules a
  obtain ⟨-, hentries, -, hown⟩ := hlibrary (ofList [y, x])
  obtain ⟨-, -, hmissing, -⟩ := hlibrary (ofList [x])
  have hfound : (ofList [y, x]).entriesAlong a = .ok [x, y] := (hentries _).2 (by decide +kernel)
  refine ⟨by decide +kernel, (hgroups _ _).2 ?_, hfound, hown (.ofList _) _ hfound,
    (hmissing _).2 ⟨⟨"y", by decide⟩, by decide +kernel, rfl⟩⟩
  exact ⟨.node ⟨.written ⟨"x", by decide⟩, ⟨"a", by decide⟩⟩, by decide +kernel, rfl,
    by decide +kernel⟩

end Restconf.Library
