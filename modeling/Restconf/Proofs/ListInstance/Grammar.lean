import Restconf.ListInstance.Basic
import Restconf.Proofs.Identifier
import Restconf.Proofs.Key.Grammar
import Restconf.Proofs.Text.Cut

set_option autoImplicit false

/-! # The grammar of list instances

`Shape` takes a segment `name=keys` apart as the grammar does: at the first `=`, into an identifier
and a text that spells a row of written keys. The main statement is `parse_iff_shape`: a segment is
read just if it has such a shape and no key is an odd boolean, the shape is unique, and the entry
that is read has exactly its name and its keys. -/

namespace Restconf.ListInstance

open Text (Utf8.encode)
open Text.Percent (Marked Spells SpellsBytes EscapesComplete)
open Key (comma Written Spelled)

/-- A segment `name=keys`, with the written keys and the text and quote mark of each. -/
structure Shape (segment name raw : List Char) (parts : List (List Marked))
    (tokens : List (List Char × Option QuoteMark)) : Prop where
  cut : segment = name ++ '=' :: raw
  first : '=' ∉ name
  identifier : Identifier.WellFormed name
  raw_ne_nil : raw ≠ []
  escapes : EscapesComplete raw
  utf8 : ∃ cs, SpellsBytes raw (Utf8.encode cs)
  /-- The decoded characters are the written keys, divided by literal commas. -/
  row : Spells raw ([comma].intercalate parts)
  parts_ne_nil : parts ≠ []
  written : List.Forall₂ (fun part t => Written part t.1 t.2) parts tokens

theorem Shape.unique {segment name name' raw raw' : List Char} {parts parts' : List (List Marked)}
    {tokens tokens' : List (List Char × Option QuoteMark)}
    (h : Shape segment name raw parts tokens) (h' : Shape segment name' raw' parts' tokens') :
    name = name' ∧ raw = raw' ∧ parts = parts' ∧ tokens = tokens' := by
  obtain ⟨rfl, rfl⟩ := Text.append_cons_inj h.first h'.first (h.cut.symm.trans h'.cut)
  exact ⟨rfl, rfl, Key.division_unique h.written h'.written h.parts_ne_nil h'.parts_ne_nil
    (h.row.unique h'.row)⟩

/-! ## What is read -/

theorem read_eq_ok_iff {scope : ModuleScope} {cs : List Char} {entry : ListInstance} :
    read scope cs = .ok entry ↔
      ∃ raw, cs = entry.node.name.chars ++ '=' :: raw ∧ entry.node.scope = scope ∧
        Key.readAll raw = .ok entry.keys := by
  unfold read
  constructor
  · intro h
    split at h
    · exact absurd h (by simp)
    · next name raw hcut =>
        split at h
        · exact absurd h (by simp)
        · next id hid =>
            obtain ⟨keys, hk, rfl⟩ := Except.map_eq_ok_iff.1 h
            refine ⟨raw, ?_, rfl, hk⟩
            rw [Identifier.parse_ofList_eq_ok_iff.1 hid]
            exact (Text.cut?_eq_some_iff.1 hcut).1
  · rintro ⟨raw, rfl, rfl, hk⟩
    have hname : '=' ∉ entry.node.name.chars := Identifier.not_mem_chars (by decide)
    rw [Text.cut?_eq_some_iff.2 ⟨rfl, hname⟩]
    simp only [Identifier.parse_ofList_chars, hk]
    rfl

theorem parse_ofList_eq_ok_iff {module : Option Identifier} {name : Identifier} {raw : List Char}
    {entry : ListInstance} :
    parse module (String.ofList (name.chars ++ '=' :: raw)) = .ok entry ↔
      entry.node = ⟨.carry module, name⟩ ∧ Key.readAll raw = .ok entry.keys := by
  rw [parse, String.toList_ofList, read_eq_ok_iff]
  constructor
  · rintro ⟨raw', hcut, hscope, hk⟩
    have hname : ∀ id : Identifier, '=' ∉ id.chars := fun _ => Identifier.not_mem_chars (by decide)
    obtain ⟨hid, rfl⟩ := Text.append_cons_inj (hname name) (hname entry.node.name) hcut
    refine ⟨?_, hk⟩
    rw [← hscope, Identifier.chars_injective hid]
  · rintro ⟨hnode, hk⟩
    rw [hnode]
    exact ⟨raw, rfl, rfl, hk⟩

/-- Texts that all have a value are the texts of some keys. -/
theorem exists_spelled {parts : List (List Marked)}
    {tokens : List (List Char × Option QuoteMark)}
    (h : List.Forall₂ (fun part t => Written part t.1 t.2) parts tokens)
    (hv : ∀ t ∈ tokens, ¬ KeyValue.OddBoolean (String.ofList t.1)) :
    ∃ keys, List.Forall₂ Spelled parts keys := by
  induction h with
  | nil => exact ⟨[], .nil⟩
  | @cons part t parts tokens hw _ ih =>
      obtain ⟨keys, hkeys⟩ := ih fun t' ht' => hv t' (List.mem_cons_of_mem _ ht')
      obtain ⟨v, hv⟩ := KeyValue.exists_ofText_iff.2 (hv t List.mem_cons_self)
      exact ⟨⟨v, String.ofList t.1, t.2⟩ :: keys, .cons ⟨by simpa using hw, hv⟩ hkeys⟩

/-- The shape of a segment that is read, with the texts of its keys and the values of the texts. -/
theorem shape_of_read {scope : ModuleScope} {cs : List Char} {entry : ListInstance}
    (h : read scope cs = .ok entry) :
    ∃ raw parts, Shape cs entry.node.name.chars raw parts
        (entry.keys.map fun k => (k.text.toList, k.quote)) ∧
      ∀ k ∈ entry.keys, KeyValue.ofText k.text = .ok k.value := by
  obtain ⟨raw, rfl, -, hk⟩ := read_eq_ok_iff.1 h
  obtain ⟨hraw, parts, hne, hs, hkeys⟩ := Key.readAll_eq_ok_iff.1 hk
  obtain ⟨hesc, hutf8⟩ := Text.Percent.exists_spells_iff.1 ⟨_, hs⟩
  refine ⟨raw, parts, ⟨rfl, Identifier.not_mem_chars (by decide), Identifier.wellFormed_chars _,
    hraw, hesc, hutf8, hs, hne, ?_⟩, ?_⟩
  · rw [List.forall₂_map_right_iff]
    exact hkeys.imp fun _ _ hk => hk.1
  · intro k hk
    obtain ⟨part, -, hv⟩ := Key.exists_spelled_of_mem hkeys hk
    exact hv

/-- **A segment is read if and only if it has the shape of a list instance and no key is an odd
    boolean; the entry has the name and the keys of the one shape that there is.** -/
theorem parse_iff_shape (module : Option Identifier) (segment : String) :
    ((∃ entry, parse module segment = .ok entry) ↔
      ∃ name raw parts tokens, Shape segment.toList name raw parts tokens ∧
        ∀ t ∈ tokens, ¬ KeyValue.OddBoolean (String.ofList t.1)) ∧
    (∀ name raw parts tokens name' raw' parts' tokens',
      Shape segment.toList name raw parts tokens →
      Shape segment.toList name' raw' parts' tokens' →
      name = name' ∧ raw = raw' ∧ parts = parts' ∧ tokens = tokens') ∧
    (∀ entry name raw parts tokens, parse module segment = .ok entry →
      Shape segment.toList name raw parts tokens →
      entry.node.name.chars = name ∧ entry.node.module? = module ∧
        entry.node.isQualified = false ∧
        List.Forall₂ (fun t k => k.text.toList = t.1 ∧ k.quote = t.2 ∧
          KeyValue.ofText k.text = .ok k.value) tokens entry.keys) := by
  refine ⟨⟨?_, ?_⟩, ?_, ?_⟩
  · rintro ⟨entry, h⟩
    obtain ⟨raw, parts, hshape, hvalues⟩ := shape_of_read h
    refine ⟨_, raw, parts, _, hshape, ?_⟩
    intro t ht
    obtain ⟨k, hk, rfl⟩ := List.mem_map.1 ht
    rw [String.ofList_toList]
    exact KeyValue.exists_ofText_iff.1 ⟨k.value, hvalues k hk⟩
  · rintro ⟨name, raw, parts, tokens, hshape, hv⟩
    obtain ⟨id, rfl⟩ := Identifier.exists_chars_eq_iff.2 hshape.identifier
    obtain ⟨keys, hkeys⟩ := exists_spelled hshape.written hv
    have hread := Key.readAll_eq_ok_iff.2
      ⟨hshape.raw_ne_nil, parts, hshape.parts_ne_nil, hshape.row, hkeys⟩
    exact ⟨⟨⟨.carry module, id⟩, keys⟩, read_eq_ok_iff.2 ⟨raw, hshape.cut, rfl, hread⟩⟩
  · intro name raw parts tokens name' raw' parts' tokens' h h'
    exact h.unique h'
  · intro entry name raw parts tokens h hshape
    -- what was read has a shape, and there is only one
    obtain ⟨raw', parts', hshape', hvalues⟩ := shape_of_read h
    obtain ⟨rfl, rfl, rfl, rfl⟩ := hshape.unique hshape'
    obtain ⟨-, -, hscope, -⟩ := read_eq_ok_iff.1 h
    refine ⟨rfl, ?_, ?_, ?_⟩
    · rw [NodeName.module?, hscope, ModuleScope.module?_carry]
    · rw [NodeName.isQualified, hscope]
      cases module <;> rfl
    · rw [List.forall₂_map_left_iff, List.forall₂_same]
      intro k hk
      exact ⟨rfl, rfl, hvalues k hk⟩

/-- A quoted key with a comma and a guarded quote mark, an empty key, and a bare key with an escaped
    comma. -/
theorem parse_iff_shape_escapedQuotes :
    let segment := "l=%27a,b%5C%27%27,,c%2Cd"
    let tokens := [("a,b'".toList, some QuoteMark.single), ([], none), ("c,d".toList, none)]
    (∃ raw parts, Shape segment.toList ['l'] raw parts tokens) ∧
    ∀ name raw parts tokens', Shape segment.toList name raw parts tokens' →
      name = ['l'] ∧ tokens' = tokens := by
  intro segment tokens
  let entry : ListInstance :=
    ⟨⟨.unknown, ⟨"l", by decide⟩⟩, [⟨.string "a,b'", "a,b'", some .single⟩,
      ⟨.string "", "", none⟩, ⟨.string "c,d", "c,d", none⟩]⟩
  have hread : parse none segment = .ok entry := by decide +kernel
  have hchars : entry.node.name.chars = ['l'] := by decide
  have htexts : (entry.keys.map fun k => (k.text.toList, k.quote)) = tokens := by decide
  obtain ⟨haccepted, hunique, hentry⟩ := parse_iff_shape none segment
  obtain ⟨name, raw, parts, tokens', hshape, -⟩ := haccepted.1 ⟨entry, hread⟩
  obtain ⟨hname, -, -, hkeys⟩ := hentry entry name raw parts tokens' hread hshape
  have htokens : tokens' = entry.keys.map fun k => (k.text.toList, k.quote) := by
    rw [← List.forall₂_eq_eq_eq, List.forall₂_map_right_iff]
    exact hkeys.imp fun _ _ hk => Prod.ext hk.1.symm hk.2.1.symm
  rw [← hname, hchars, htokens, htexts] at hshape
  refine ⟨⟨raw, parts, hshape⟩, ?_⟩
  intro name' raw' parts' tokens' hshape'
  obtain ⟨hname', -, -, htokens'⟩ := hunique _ _ _ _ _ _ _ _ hshape' hshape
  exact ⟨hname', htokens'⟩

end Restconf.ListInstance
