import Restconf.ListInstance.Basic
import Restconf.Proofs.Key.Marks

set_option autoImplicit false

/-! # List instances that are escaped otherwise

How the keys of an entry are percent-encoded is left to whoever writes the URL, and may change on
the way. `parse_recoded` says that it makes no difference, neither to the entry nor to the error,
except at commas, and between quotes not even there. -/

namespace Restconf.ListInstance

open Text.Percent (Marked decodeWithMarks)
open Key (CommasAgree InQuotes)

theorem read_append_cons (scope : ModuleScope) {name : List Char} (h : '=' ∉ name)
    (raw : List Char) :
    read scope (name ++ '=' :: raw) =
      match Identifier.parse (String.ofList name) with
      | .error reason => .error (.badName (String.ofList name) reason)
      | .ok id => (Key.readAll raw).map fun keys => ⟨⟨scope, id⟩, keys⟩ := by
  have hcut : Text.cut? '=' (name ++ '=' :: raw) = some (name, raw) :=
    Text.cut?_eq_some_iff.2 ⟨rfl, h⟩
  cases hid : Identifier.parse (String.ofList name) with
  | error reason => simp only [read, hcut, hid]
  | ok id => simp only [read, hcut, hid]

theorem parse_append_equals (module : Option Identifier) {name : String} (h : '=' ∉ name.toList)
    (raw : String) :
    parse module (name ++ "=" ++ raw) =
      match Identifier.parse name with
      | .error reason => .error (.badName name reason)
      | .ok id => (Key.readAll raw.toList).map fun keys => ⟨⟨.carry module, id⟩, keys⟩ := by
  have htext : (name ++ "=" ++ raw).toList = name.toList ++ '=' :: raw.toList := by simp
  rw [parse, htext, read_append_cons _ h, String.ofList_toList]

/-- **Two key lists of the same characters, with the same escaped commas, are read as the same
    entry, or refused for the same error at the same place. If one is read, the other is read as the
    same entry even if commas between the quotes of the first are escaped otherwise.** -/
theorem parse_recoded (module : Option Identifier) (name raw raw' : String)
    (hname : '=' ∉ name.toList) (ms ms' : List Marked)
    (hraw : decodeWithMarks raw.toList = some ms) (hraw' : decodeWithMarks raw'.toList = some ms')
    (hchars : ms'.map Marked.char = ms.map Marked.char) :
    (CommasAgree (fun _ => True) ms ms' →
      parse module (name ++ "=" ++ raw') = parse module (name ++ "=" ++ raw)) ∧
    (CommasAgree (fun i => ¬ InQuotes ms i) ms ms' → ∀ entry,
      parse module (name ++ "=" ++ raw) = .ok entry →
        parse module (name ++ "=" ++ raw') = .ok entry) := by
  rw [parse_append_equals module hname, parse_append_equals module hname]
  constructor
  · intro hcommas
    have hseen := Key.map_seen_eq_of_commasAgree hchars.symm hcommas
    rw [Key.readAll_congr hraw hraw' hseen]
  · intro hcommas entry hparse
    cases hid : Identifier.parse name with
    | error reason =>
        rw [hid] at hparse
        exact absurd hparse (by simp)
    | ok id =>
        rw [hid] at hparse
        cases hread : Key.readAll raw.toList with
        | error e => simp [hread, Except.map] at hparse
        | ok keys =>
            have hread' := Key.readAll_of_recodes hraw hraw' ⟨hchars, hcommas⟩ hread
            simp only [hread, Except.map] at hparse
            simp only [hread', Except.map, hparse]

/-- An escaped quote mark is found open at the same place as a literal one, and an escaped comma in
    quotes is no other than a literal one. -/
theorem parse_recoded_escapedQuotes :
    parse none "l=a,%22b" = parse none "l=a,\x22b" ∧
    parse none "l=a,%22b" = .error (.openQuote .double 2) ∧
    ∃ entry, parse none "l='a,b',c%2Cd" = .ok entry ∧
      parse none "l=%27a%2Cb',%63%2cd" = .ok entry := by
  let open₁ : List Marked := [⟨'a', false⟩, ⟨',', false⟩, ⟨'\x22', false⟩, ⟨'b', false⟩]
  let open₂ : List Marked := [⟨'a', false⟩, ⟨',', false⟩, ⟨'\x22', true⟩, ⟨'b', false⟩]
  let row₁ : List Marked := [⟨'\'', false⟩, ⟨'a', false⟩, ⟨',', false⟩, ⟨'b', false⟩, ⟨'\'', false⟩,
    ⟨',', false⟩, ⟨'c', false⟩, ⟨',', true⟩, ⟨'d', false⟩]
  let row₂ : List Marked := [⟨'\'', true⟩, ⟨'a', false⟩, ⟨',', true⟩, ⟨'b', false⟩, ⟨'\'', false⟩,
    ⟨',', false⟩, ⟨'c', true⟩, ⟨',', true⟩, ⟨'d', false⟩]
  have hopen : CommasAgree (fun _ => True) open₁ open₂ := by
    have hmarks : ∀ i < 4, ∀ m ∈ open₁[i]?, ∀ m' ∈ open₂[i]?, m.char = ',' →
        m'.escaped = m.escaped := by decide
    intro i m m' hm hm' hcomma _
    exact hmarks i (List.getElem?_eq_some_iff.1 hm).1 m hm m' hm' hcomma
  have hrow : CommasAgree (fun i => ¬ InQuotes row₁ i) row₁ row₂ := by
    have hmarks : ∀ i < 9, i ≠ 2 → ∀ m ∈ row₁[i]?, ∀ m' ∈ row₂[i]?, m.char = ',' →
        m'.escaped = m.escaped := by decide
    have hquoted : Key.Written (row₁.take 5) ['a', ',', 'b'] (some .single) :=
      .quoted (o := ⟨'\'', false⟩) rfl
        (.plain (by decide) (by decide) (.plain (by decide) (by decide)
          (.plain (by decide) (by decide) .nil))) rfl
    have hquotes : InQuotes ((row₁.take 5) ++ Key.following (some (row₁.drop 6))) 2 :=
      .first hquoted (by decide) (by decide)
    intro i m m' hm hm' hcomma hi
    refine hmarks i (List.getElem?_eq_some_iff.1 hm).1 ?_ m hm m' hm' hcomma
    rintro rfl
    exact hi hquotes
  have hname : '=' ∉ "l".toList := by decide
  have hread : (parse none "l='a,b',c%2Cd").isOk = true := by decide +kernel
  refine ⟨?_, by decide +kernel, ?_⟩
  · exact (parse_recoded none "l" "a,\x22b" "a,%22b" hname open₁ open₂ (by decide +kernel)
      (by decide +kernel) rfl).1 hopen
  · cases hentry : parse none "l='a,b',c%2Cd" with
    | error e =>
        rw [hentry] at hread
        exact absurd hread (by simp [Except.isOk, Except.toBool])
    | ok entry =>
        have hrecoded := (parse_recoded none "l" "'a,b',c%2Cd" "%27a%2Cb',%63%2cd" hname row₁ row₂
          (by decide +kernel) (by decide +kernel) rfl).2 hrow entry
        exact ⟨entry, rfl, hrecoded hentry⟩

end Restconf.ListInstance
