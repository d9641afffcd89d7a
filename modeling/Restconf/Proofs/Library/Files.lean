import Mathlib.Data.List.Nodup
import Mathlib.Data.List.Perm.Basic
import Restconf.Library.Basic

set_option autoImplicit false

/-! # The files of a library

Files stay in ascending order when one is inserted, and the entry of a file stays that of the file's
own module (`IsFiled`). Such a library is known by what is found in it (`IsFiled.ext`). What is
found after an addition is what was found before, or else the new entry (`find?_addNew`), so of
several entries of a module the first one stays (`find?_ofList`). -/

namespace Restconf.Library

/-- The files are in ascending order, and each entry is filed under its own module. -/
structure IsFiled (l : Library) : Prop where
  ascending : l.files.Pairwise fun a b => a.1.text < b.1.text
  own : ∀ file ∈ l.files, file.2.module = file.1

/-! ## One more file -/

theorem mem_insertFile {module : Identifier} {e : Entry} {files : List (Identifier × Entry)}
    {file : Identifier × Entry} (h : file ∈ insertFile module e files) :
    file = (module, e) ∨ file ∈ files := by
  induction files with
  | nil => exact Or.inl (List.mem_singleton.1 h)
  | cons other files ih =>
      obtain ⟨name, f⟩ := other
      rw [insertFile] at h
      split at h
      · exact List.mem_cons.1 h
      · split at h
        · next heq =>
            obtain rfl : module = name := Identifier.ext heq
            exact (List.mem_cons.1 h).imp_right (List.mem_cons_of_mem _)
        · rcases List.mem_cons.1 h with rfl | h
          · exact Or.inr List.mem_cons_self
          · exact (ih h).imp_right (List.mem_cons_of_mem _)

/-- An entry is found under its module once it is filed there, and every other file is found as
    before. -/
theorem find?_insertFile (module : Identifier) (e : Entry) (files : List (Identifier × Entry))
    (m : String) :
    (insertFile module e files).find? (·.1.text = m) =
      if module.text = m then some (module, e) else files.find? (·.1.text = m) := by
  induction files with
  | nil => by_cases hm : module.text = m <;> simp [insertFile, hm]
  | cons other files ih =>
      obtain ⟨name, f⟩ := other
      rw [insertFile]
      split
      · by_cases hm : module.text = m <;> simp [hm]
      · split
        · next heq =>
            obtain rfl : module = name := Identifier.ext heq
            by_cases hm : module.text = m <;> simp [hm]
        · next hne =>
            -- the module comes later, so this file is not its own
            by_cases hm : name.text = m
            · have hm' : module.text ≠ m := fun h => hne (h.trans hm.symm)
              simp [hm, hm']
            · simp only [List.find?_cons, hm, decide_false, ih]

theorem ascending_insertFile {module : Identifier} {e : Entry} {files : List (Identifier × Entry)}
    (h : files.Pairwise fun a b => a.1.text < b.1.text) :
    (insertFile module e files).Pairwise fun a b => a.1.text < b.1.text := by
  induction files with
  | nil => exact List.pairwise_singleton _ _
  | cons other files ih =>
      obtain ⟨name, f⟩ := other
      obtain ⟨hfirst, hrest⟩ := List.pairwise_cons.1 h
      rw [insertFile]
      split
      · next hlt =>
          refine List.pairwise_cons.2 ⟨?_, h⟩
          intro file hfile
          rcases List.mem_cons.1 hfile with rfl | hfile
          · exact hlt
          · exact String.lt_trans hlt (hfirst file hfile)
      · next hnot =>
          split
          · exact List.pairwise_cons.2 ⟨hfirst, hrest⟩
          · next hne =>
              have hlt : name.text < module.text :=
                Std.lt_of_le_of_ne (String.not_lt.1 hnot) (Ne.symm hne)
              refine List.pairwise_cons.2 ⟨?_, ih hrest⟩
              intro file hfile
              rcases mem_insertFile hfile with rfl | hfile
              · exact hlt
              · exact hfirst file hfile

/-! ## What is found -/

/-- Where no key repeats, the search for a key finds the one element that has it. -/
theorem find?_key_eq_some_iff {α : Type} {key : α → String} {xs : List α}
    (h : (xs.map key).Nodup) {m : String} {x : α} :
    xs.find? (fun y => key y = m) = some x ↔ x ∈ xs ∧ key x = m := by
  constructor
  · intro hfound
    exact ⟨List.mem_of_find?_eq_some hfound, by simpa using List.find?_some hfound⟩
  · rintro ⟨hx, rfl⟩
    cases hfound : xs.find? (fun y => key y = key x) with
    | none => simpa using List.find?_eq_none.1 hfound x hx
    | some y =>
        have hkey : key y = key x := by simpa using List.find?_some hfound
        rw [List.inj_on_of_nodup_map h (List.mem_of_find?_eq_some hfound) hx hkey]

theorem IsFiled.nodup {l : Library} (h : l.IsFiled) : (l.files.map (·.1.text)).Nodup := by
  rw [List.nodup_iff_pairwise_ne, List.pairwise_map]
  refine h.ascending.imp ?_
  intro a b hlt heq
  rw [heq] at hlt
  exact String.lt_irrefl _ hlt

theorem IsFiled.find?_eq_some_iff_files {l : Library} (h : l.IsFiled) {m : String} {e : Entry} :
    l.find? m = some e ↔ ∃ file ∈ l.files, file.1.text = m ∧ file.2 = e := by
  simp only [find?, Option.map_eq_some_iff, find?_key_eq_some_iff h.nodup, and_assoc]

/-- An entry is found under its own module. -/
theorem IsFiled.find?_eq_some_iff_entries {l : Library} (h : l.IsFiled) {m : String} {e : Entry} :
    l.find? m = some e ↔ e ∈ l.entries ∧ e.module.text = m := by
  rw [h.find?_eq_some_iff_files, entries, List.mem_map]
  constructor
  · rintro ⟨file, hfile, rfl, rfl⟩
    exact ⟨⟨file, hfile, rfl⟩, by rw [h.own file hfile]⟩
  · rintro ⟨⟨file, hfile, rfl⟩, rfl⟩
    exact ⟨file, hfile, by rw [h.own file hfile], rfl⟩

/-- The files are the entries that are found under their own module. -/
theorem IsFiled.mem_files_iff {l : Library} (h : l.IsFiled) {file : Identifier × Entry} :
    file ∈ l.files ↔ file.2.module = file.1 ∧ l.find? file.1.text = some file.2 := by
  rw [h.find?_eq_some_iff_files]
  constructor
  · intro hfile
    exact ⟨h.own file hfile, file, hfile, rfl, rfl⟩
  · rintro ⟨-, other, hother, hname, hentry⟩
    have heq : other = file := Prod.ext (Identifier.ext hname) hentry
    exact heq ▸ hother

/-- **Two libraries in which the same is found are the same.** -/
theorem IsFiled.ext {l l' : Library} (h : l.IsFiled) (h' : l'.IsFiled)
    (hfound : ∀ m, l.find? m = l'.find? m) : l = l' := by
  have hperm : l.files.Perm l'.files := by
    refine (List.perm_ext_iff_of_nodup h.nodup.of_map h'.nodup.of_map).2 ?_
    intro file
    rw [h.mem_files_iff, h'.mem_files_iff, hfound]
  have hfiles : l.files = l'.files := by
    refine hperm.eq_of_pairwise ?_ h.ascending h'.ascending
    intro a b _ _ hab hba
    exact absurd (String.lt_trans hab hba) (String.lt_irrefl _)
  cases l
  cases l'
  exact congrArg Library.mk hfiles

theorem IsFiled.entries_ascending {l : Library} (h : l.IsFiled) :
    (l.entries.map fun e => e.module.text).Pairwise (· < ·) := by
  rw [entries, List.map_map, List.pairwise_map]
  refine h.ascending.imp_of_mem ?_
  intro a b ha hb hlt
  simpa only [Function.comp_apply, h.own a ha, h.own b hb] using hlt

/-! ## Additions -/

theorem contains_iff {l : Library} {m : String} : l.contains m = true ↔ l.find? m ≠ none := by
  rw [contains, Option.isSome_iff_ne_none]

/-- A module is added if it is not there, and refused if it is. -/
theorem add_eq_ok_iff {l l' : Library} {e : Entry} :
    l.add e = .ok l' ↔ l.find? e.module.text = none ∧ l' = ⟨insertFile e.module e l.files⟩ := by
  rw [add]
  by_cases hfound : l.find? e.module.text = none
  · simp only [contains_iff, hfound, ne_eq, not_true, if_false, Except.ok.injEq, true_and]
    exact eq_comm
  · simp [contains_iff, hfound]

theorem add_eq_error_iff {l : Library} {e : Entry} {error : Error} :
    l.add e = .error error ↔
      l.find? e.module.text ≠ none ∧ error = .repeatedModule e.module.text := by
  rw [add]
  by_cases hfound : l.find? e.module.text = none
  · simp [contains_iff, hfound]
  · simp only [contains_iff, hfound, ne_eq, not_false_eq_true, if_true, Except.error.injEq,
      true_and]
    exact eq_comm

theorem addNew_cases (l : Library) (e : Entry) :
    (l.find? e.module.text = none ∧ l.add e = .ok (l.addNew e) ∧
      l.addNew e = ⟨insertFile e.module e l.files⟩) ∨
    (l.find? e.module.text ≠ none ∧ l.add e = .error (.repeatedModule e.module.text) ∧
      l.addNew e = l) := by
  by_cases hfound : l.find? e.module.text = none
  · have hadd := add_eq_ok_iff.2 ⟨hfound, rfl⟩
    have hnew : l.addNew e = ⟨insertFile e.module e l.files⟩ := by simp only [addNew, hadd]
    exact Or.inl ⟨hfound, hnew ▸ hadd, hnew⟩
  · have hadd := add_eq_error_iff.2 ⟨hfound, rfl⟩
    exact Or.inr ⟨hfound, hadd, by simp only [addNew, hadd]⟩

/-- What was found stays, and the new entry is found where there was none. -/
theorem find?_addNew (l : Library) (e : Entry) (m : String) :
    (l.addNew e).find? m = (l.find? m).or (if e.module.text = m then some e else none) := by
  rcases addNew_cases l e with ⟨hfound, -, hnew⟩ | ⟨hfound, -, hnew⟩
  · rw [hnew, find?, find?_insertFile]
    by_cases hm : e.module.text = m
    · subst hm
      simp [hfound]
    · simp [hm, find?]
  · rw [hnew]
    by_cases hm : e.module.text = m
    · subst hm
      obtain ⟨f, hf⟩ := Option.ne_none_iff_exists'.1 hfound
      simp [hf]
    · simp [hm]

theorem isFiled_empty : empty.IsFiled :=
  ⟨.nil, fun _ hfile => absurd hfile List.not_mem_nil⟩

theorem IsFiled.addNew {l : Library} (h : l.IsFiled) (e : Entry) : (l.addNew e).IsFiled := by
  rcases addNew_cases l e with ⟨-, -, hnew⟩ | ⟨-, -, hnew⟩
  · rw [hnew]
    refine ⟨ascending_insertFile h.ascending, fun file hfile => ?_⟩
    rcases mem_insertFile hfile with rfl | hfile
    · rfl
    · exact h.own file hfile
  · rw [hnew]
    exact h

/-! ## Many additions -/

theorem find?_foldl_addNew (l : Library) (entries : List Entry) (m : String) :
    (entries.foldl Library.addNew l).find? m =
      (l.find? m).or (entries.find? (·.module.text = m)) := by
  induction entries generalizing l with
  | nil => simp
  | cons e entries ih =>
      rw [List.foldl_cons, ih, find?_addNew, Option.or_assoc, List.find?_cons]
      by_cases hm : e.module.text = m <;> simp [hm]

theorem IsFiled.foldl_addNew {l : Library} (h : l.IsFiled) (entries : List Entry) :
    (entries.foldl Library.addNew l).IsFiled := by
  induction entries generalizing l with
  | nil => exact h
  | cons e entries ih => exact ih (h.addNew e)

/-- **Under each module a library of entries has the first entry of that module.** -/
theorem find?_ofList (entries : List Entry) (m : String) :
    (ofList entries).find? m = entries.find? (·.module.text = m) :=
  (find?_foldl_addNew empty entries m).trans Option.none_or

theorem isFiled_ofList (entries : List Entry) : (ofList entries).IsFiled :=
  isFiled_empty.foldl_addNew entries

end Restconf.Library
