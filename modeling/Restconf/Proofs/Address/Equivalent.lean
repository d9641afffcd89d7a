import Restconf.Proofs.Address.Encoding
import Restconf.Proofs.Key.Kinds

set_option autoImplicit false

/-! # Addresses within each other

Two addresses lead to the same place if each is within the other: modules, names and key values
agree, segment by segment. A canonical path writes the texts of the keys and not their values, so
the two have one canonical path just if the texts agree, too (`canonical_eq_iff_of_isWithin`). Texts
of strings always do. -/

namespace Restconf

/-! ## Keys and segments that lead to the same place -/

theorem KeyValue.exists_string_of_same {v w : KeyValue} (hkind : v.kind = .string)
    (hsame : v.same w = true) : ∃ text, v = string text ∧ w = string text := by
  cases v with
  | string text =>
      cases w with
      | string text' => exact ⟨text, rfl, congrArg string (of_decide_eq_true hsame).symm⟩
      | boolean _ | integer _ | float _ => exact absurd hsame (by simp [same])
  | boolean _ | integer _ | float _ => exact absurd hkind (by simp [kind])

/-- Strings with one value are written alike. -/
theorem Key.text_eq_of_same {k k' : Key} (hk : KeyValue.ofText k.text = .ok k.value)
    (hk' : KeyValue.ofText k'.text = .ok k'.value) (hkind : k.value.kind = .string)
    (hsame : k.value.same k'.value = true) : k.text = k'.text := by
  obtain ⟨text, hv, hv'⟩ := KeyValue.exists_string_of_same hkind hsame
  rw [hv] at hk
  rw [hv'] at hk'
  exact (KeyValue.ofText_eq_string_iff.1 hk).1.symm.trans (KeyValue.ofText_eq_string_iff.1 hk').1

namespace Segment

theorem leadsTo_iff {s t : Segment} :
    s.leadsTo t = true ↔ s.module? = t.module? ∧ s.name = t.name ∧
      List.Forall₂ (fun k k' => k.value.same k'.value = true) s.keys t.keys := by
  rw [leadsTo, List.forall₂_iff_zip]
  simp [and_assoc]

end Segment

namespace Address

theorem forall₂_leadsTo_of_isWithin {a b : Address} (hab : a.isWithin b = true)
    (hba : b.isWithin a = true) :
    List.Forall₂ (fun s t => s.leadsTo t = true) a.segments b.segments := by
  rw [isWithin, Bool.and_eq_true, decide_eq_true_iff] at hab hba
  rw [List.forall₂_iff_zip]
  refine ⟨Nat.le_antisymm hba.1 hab.1, fun hst => ?_⟩
  exact List.all_eq_true.1 hab.2 _ hst

/-! ## Addresses that were read -/

/-- A list entry that was read has keys, and a node has none. -/
theorem Resolves.isList_iff {parent : Option Identifier} {t : PathToken} {s : Segment}
    (h : Resolves parent t s) : s.isList = true ↔ s.keys ≠ [] := by
  obtain ⟨module?, name, raw?⟩ := t
  cases h with
  | node => simp [Segment.isList, Segment.keys]
  | list hk => simpa [Segment.isList, Segment.keys] using Key.ne_nil_of_readAll hk

theorem Leads.isList_iff {parent : Option Identifier} {ts : List PathToken} {ss : List Segment}
    (h : Leads parent ts ss) : ∀ s ∈ ss, s.isList = true ↔ s.keys ≠ [] := by
  induction h with
  | nil => simp
  | cons ht _ ih => exact List.forall_mem_cons.2 ⟨ht.isList_iff, ih⟩

/-- No path goes back to having no module. -/
theorem Leads.parent_eq_none {parent : Option Identifier} {ts : List PathToken}
    {ss : List Segment} (h : Leads parent ts ss) :
    ∀ s ∈ ss, s.module? = none → parent = none := by
  induction h with
  | nil => simp
  | @cons parent t s ts ss ht _ ih =>
      have hhead : s.module? = none → parent = none := by
        intro hnone
        rw [ht.module?_eq, Option.or_eq_none_iff] at hnone
        exact hnone.2
      exact List.forall_mem_cons.2 ⟨hhead, fun s' hs' hnone => hhead (ih s' hs' hnone)⟩

theorem Leads.pairwise_module? {parent : Option Identifier} {ts : List PathToken}
    {ss : List Segment} (h : Leads parent ts ss) :
    ss.Pairwise fun s s' => s'.module? = none → s.module? = none := by
  induction h with
  | nil => exact .nil
  | cons _ hts ih => exact .cons hts.parent_eq_none ih

theorem leads_of_isValid {input : String} (h : (parse input).isValid = true) :
    ∃ ts, Leads none ts (parse input).segments := by
  obtain ⟨ss, hparse, hread⟩ := segments_of_isValid h
  rw [hparse]
  exact exists_leads_of_readPath hread

theorem encodable_of_isValid {input : String} (h : (parse input).isValid = true) :
    (parse input).Encodable := by
  obtain ⟨ts, hts⟩ := leads_of_isValid h
  refine ⟨hts.pairwise_module?, fun s hs => (hts.isList_iff s hs).1, fun s hs k hk => ?_⟩
  exact KeyValue.exists_ofText_iff.1 ⟨k.value, hts.valued s hs k hk⟩

/-! ## One canonical path -/

theorem Encodable.canonical_eq_iff {a b : Address} (ha : a.Encodable) (hb : b.Encodable) :
    a.canonical = b.canonical ↔
      a.segments.map Segment.content = b.segments.map Segment.content := by
  refine ⟨fun heq => ?_, canonical_congr⟩
  rw [← ha.parse_canonical.2, heq]
  exact hb.parse_canonical.2

/-- Addresses of one depth have one location just if they have one canonical path. -/
theorem location_eq_iff_canonical_eq {a b : Address} (h : a.depth = b.depth)
    (entryPoint : String) :
    a.location entryPoint = b.location entryPoint ↔ a.canonical = b.canonical := by
  have hempty : a.segments.isEmpty = b.segments.isEmpty := by
    rw [Bool.eq_iff_iff, List.isEmpty_iff_length_eq_zero, List.isEmpty_iff_length_eq_zero]
    exact iff_of_eq (congrArg (· = 0) h)
  rw [location, location, String.ofList_inj, locationChars_eq, locationChars_eq,
    List.append_cancel_left_eq, canonical, canonical, String.ofList_inj]
  simp only [List.cons.injEq, true_and, resourceChars, hempty]
  split
  · next hnone =>
      have ha : a.segments = [] := List.isEmpty_iff.1 (hempty.trans hnone)
      refine iff_of_true rfl ?_
      rw [canonicalChars, canonicalChars, ha, List.isEmpty_iff.1 hnone]
  · rfl

/-- The texts of the keys, segment by segment. -/
def keyTexts (a : Address) : List (List String) :=
  a.segments.map fun s => s.keys.map Key.text

/-- Segments that lead to the same place have one content just if their keys have one text each. -/
theorem content_eq_iff_of_leadsTo {s t : Segment} (hs : s.isList = true ↔ s.keys ≠ [])
    (ht : t.isList = true ↔ t.keys ≠ []) (h : s.leadsTo t = true) :
    s.content = t.content ↔ s.keys.map Key.text = t.keys.map Key.text := by
  obtain ⟨hmodule, hname, hkeys⟩ := Segment.leadsTo_iff.1 h
  have hlist : s.isList = t.isList := by
    rw [Bool.eq_iff_iff, hs, ht, ← List.length_pos_iff, ← List.length_pos_iff, hkeys.length_eq]
  rw [Segment.content_eq_iff]
  exact ⟨fun hcontent => hcontent.2.2.2, fun htexts => ⟨hlist, hmodule, hname, htexts⟩⟩

section

variable {s t : String} (hs : (parse s).isValid = true) (ht : (parse t).isValid = true)
  (hst : (parse s).isWithin (parse t) = true) (hts : (parse t).isWithin (parse s) = true)

include hs ht hst hts

theorem map_content_eq_iff_keyTexts :
    (parse s).segments.map Segment.content = (parse t).segments.map Segment.content ↔
      (parse s).keyTexts = (parse t).keyTexts := by
  obtain ⟨_, hleads⟩ := leads_of_isValid hs
  obtain ⟨_, hleads'⟩ := leads_of_isValid ht
  have hrows := List.forall₂_iff_zip.1 (forall₂_leadsTo_of_isWithin hst hts)
  rw [keyTexts, keyTexts, map_eq_map_iff_forall₂, map_eq_map_iff_forall₂, List.forall₂_iff_zip,
    List.forall₂_iff_zip]
  refine and_congr_right fun _ => forall_congr' fun x => forall_congr' fun y => ?_
  refine imp_congr_right fun hxy => ?_
  obtain ⟨hx, hy⟩ := List.of_mem_zip hxy
  exact content_eq_iff_of_leadsTo (hleads.isList_iff x hx) (hleads'.isList_iff y hy) (hrows.2 hxy)

theorem keyTexts_eq_of_strings
    (hstrings : ∀ segment ∈ (parse s).segments, ∀ k ∈ segment.keys, k.value.kind = .string) :
    (parse s).keyTexts = (parse t).keyTexts := by
  have hrows := List.forall₂_iff_zip.1 (forall₂_leadsTo_of_isWithin hst hts)
  rw [keyTexts, keyTexts, map_eq_map_iff_forall₂, List.forall₂_iff_zip]
  refine ⟨hrows.1, fun {x y} hxy => ?_⟩
  obtain ⟨hx, hy⟩ := List.of_mem_zip hxy
  obtain ⟨-, -, hsame⟩ := Segment.leadsTo_iff.1 (hrows.2 hxy)
  rw [List.forall₂_iff_zip] at hsame
  rw [map_eq_map_iff_forall₂, List.forall₂_iff_zip]
  refine ⟨hsame.1, fun {k k'} hk => ?_⟩
  obtain ⟨hx', hy'⟩ := List.of_mem_zip hk
  exact Key.text_eq_of_same (valued_of_isValid hs x hx k hx') (valued_of_isValid ht y hy k' hy')
    (hstrings x hx k hx') (hsame.2 hk)

/-- **Two addresses that were read and are within each other have one canonical path just if the
    keys of their segments have the same texts, and so one location below any entry point. They have
    if all keys are strings.** -/
theorem canonical_eq_iff_of_isWithin :
    ((parse s).canonical = (parse t).canonical ↔ (parse s).keyTexts = (parse t).keyTexts) ∧
    (∀ entryPoint, (parse s).location entryPoint = (parse t).location entryPoint ↔
      (parse s).keyTexts = (parse t).keyTexts) ∧
    ((∀ segment ∈ (parse s).segments, ∀ k ∈ segment.keys, k.value.kind = .string) →
      (parse s).keyTexts = (parse t).keyTexts) := by
  have hcanonical : (parse s).canonical = (parse t).canonical ↔
      (parse s).keyTexts = (parse t).keyTexts :=
    ((encodable_of_isValid hs).canonical_eq_iff (encodable_of_isValid ht)).trans
      (map_content_eq_iff_keyTexts hs ht hst hts)
  have hdepth : (parse s).depth = (parse t).depth :=
    (forall₂_leadsTo_of_isWithin hst hts).length_eq
  exact ⟨hcanonical, fun entryPoint => (location_eq_iff_canonical_eq hdepth entryPoint).trans
    hcanonical, keyTexts_eq_of_strings hs ht hst hts⟩

end

theorem canonical_eq_iff_of_isWithin_quotedKeys :
    (parse "/m:l='a,b',%78/m:leaf").canonical = (parse "/m:l=a%2Cb,\x22x\x22/leaf").canonical ∧
    (parse "/l=1").canonical ≠ (parse "/l=+1").canonical := by
  have hstrings := canonical_eq_iff_of_isWithin (s := "/m:l='a,b',%78/m:leaf")
    (t := "/m:l=a%2Cb,\x22x\x22/leaf") (by decide +kernel) (by decide +kernel) (by decide +kernel)
    (by decide +kernel)
  have hintegers := canonical_eq_iff_of_isWithin (s := "/l=1") (t := "/l=+1") (by decide +kernel)
    (by decide +kernel) (by decide +kernel) (by decide +kernel)
  refine ⟨hstrings.1.2 (hstrings.2.2 (by decide +kernel)), fun heq => ?_⟩
  exact absurd (hintegers.1.1 heq) (by decide +kernel)

/-- Addresses within each other can have two canonical paths. -/
theorem canonical_ne_leadingZero :
    ¬ ∀ s t, (parse s).isValid = true → (parse t).isValid = true →
      (parse s).isWithin (parse t) = true → (parse t).isWithin (parse s) = true →
      (parse s).canonical = (parse t).canonical ∧
        ∀ entryPoint, (parse s).location entryPoint = (parse t).location entryPoint := by
  intro h
  obtain ⟨hcanonical, -⟩ := h "/x=1" "/x=01" (by decide +kernel) (by decide +kernel)
    (by decide +kernel) (by decide +kernel)
  exact absurd hcanonical (by decide +kernel)

end Address

end Restconf
