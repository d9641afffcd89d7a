import Restconf.Proofs.ListInstance.Grammar
import Restconf.Proofs.Segment

set_option autoImplicit false

/-! # Written list instances read back

An entry is written in two ways: as it stands in a path, and with its keys in canonical form. The
main statement is `parse_toString_canonicalKeys`: both are read back unless a key is an odd boolean,
with the same texts in the same order, and an entry that was read is read back from its own text
unchanged. What the keys are does not matter; a key that was made of a value may get the value of
its text instead. -/

namespace Restconf

/-! ## Names whose module is not written -/

theorem NodeName.eq_carry {n : NodeName} (h : n.isQualified = false) :
    n = ⟨.carry n.module?, n.name⟩ := by
  obtain ⟨scope, name⟩ := n
  cases scope with
  | unknown => rfl
  | carried m => rfl
  | written m => exact absurd h (by simp [isQualified])

theorem NodeName.render_eq_chars {n : NodeName} (h : n.isQualified = false) :
    n.render = n.name.chars := by
  rw [n.eq_carry h, render]
  cases n.module? <;> rfl

namespace ListInstance

/-! ## The two texts of an entry -/

theorem toString_eq_ofList {entry : ListInstance} (h : entry.node.isQualified = false) :
    toString entry = String.ofList (entry.node.name.chars ++ '=' :: Key.renderAll entry.keys) := by
  rw [← NodeName.render_eq_chars h]
  rfl

theorem name_append_canonicalKeys (entry : ListInstance) :
    entry.node.name.text ++ "=" ++ entry.canonicalKeys =
      String.ofList
        (entry.node.name.chars ++ '=' :: Key.renderAll (entry.keys.map Key.unquoted)) := by
  rw [← String.toList_inj]
  simp [canonicalKeys, Identifier.chars]

/-! ## Reading them -/

/-- What a name and some raw keys are read as in the module of an entry. -/
theorem parse_name_eq_ok_iff {entry e : ListInstance} (h : entry.node.isQualified = false)
    (raw : List Char) :
    parse entry.node.module? (String.ofList (entry.node.name.chars ++ '=' :: raw)) = .ok e ↔
      e.node = entry.node ∧ Key.readAll raw = .ok e.keys := by
  rw [parse_ofList_eq_ok_iff, ← entry.node.eq_carry h]

theorem exists_parse_name_iff {entry : ListInstance} (h : entry.node.isQualified = false)
    (raw : List Char) :
    (∃ e, parse entry.node.module? (String.ofList (entry.node.name.chars ++ '=' :: raw)) = .ok e) ↔
      ∃ keys, Key.readAll raw = .ok keys := by
  constructor
  · rintro ⟨e, he⟩
    exact ⟨e.keys, ((parse_name_eq_ok_iff h raw).1 he).2⟩
  · rintro ⟨keys, hkeys⟩
    exact ⟨⟨entry.node, keys⟩, (parse_name_eq_ok_iff h raw).2 ⟨rfl, hkeys⟩⟩

/-- An entry that was read has the module it was read in, and its keys read back unchanged. -/
theorem reread_of_parse {module : Option Identifier} {segment : String}
    {entry : ListInstance} (h : parse module segment = .ok entry) :
    entry.node.module? = module ∧ Key.Valued entry.keys ∧
      Key.readAll (Key.renderAll entry.keys) = .ok entry.keys := by
  obtain ⟨raw, -, hscope, hk⟩ := read_eq_ok_iff.1 h
  refine ⟨?_, Key.valued_of_readAll hk, Key.readAll_renderAll_of_readAll hk⟩
  rw [NodeName.module?, hscope, ModuleScope.module?_carry]

/-- **An entry whose module is not written is read back from its text and from its canonical keys,
    in its module, if and only if no key is an odd boolean. Reading keeps number, order and texts of
    the keys and gives each the value of its text; from its text also the quotes. An entry that was
    read is read back unchanged from its text, and with equal values from its canonical keys.** -/
theorem parse_toString_canonicalKeys (entry : ListInstance) (hkeys : entry.keys ≠ [])
    (hname : entry.node.isQualified = false) :
    ((∃ e, parse entry.node.module? (toString entry) = .ok e) ↔
      ∀ k ∈ entry.keys, ¬ KeyValue.OddBoolean k.text) ∧
    ((∃ e, parse entry.node.module? (entry.node.name.text ++ "=" ++ entry.canonicalKeys) = .ok e) ↔
      ∀ k ∈ entry.keys, ¬ KeyValue.OddBoolean k.text) ∧
    (∀ e, parse entry.node.module? (toString entry) = .ok e →
      e.node = entry.node ∧
      List.Forall₂ (fun k k' => k'.text = k.text ∧ KeyValue.ofText k.text = .ok k'.value ∧
        ∀ q, k.quote = some q → k'.quote = some q) entry.keys e.keys) ∧
    (∀ e, parse entry.node.module? (entry.node.name.text ++ "=" ++ entry.canonicalKeys) = .ok e →
      e.node = entry.node ∧
      List.Forall₂ (fun k k' => k'.text = k.text ∧ KeyValue.ofText k.text = .ok k'.value)
        entry.keys e.keys) ∧
    (∀ module segment, parse module segment = .ok entry →
      (parse module (toString entry) = .ok entry ∧ entry.same entry = true) ∧
      ∃ e, parse module (entry.node.name.text ++ "=" ++ entry.canonicalKeys) = .ok e ∧
        List.Forall₂ (fun k k' => k'.value = k.value ∧ k'.value.same k.value = true)
          entry.keys e.keys) := by
  have hunquoted : entry.keys.map Key.unquoted ≠ [] := by simpa using hkeys
  rw [toString_eq_ofList hname, name_append_canonicalKeys]
  refine ⟨?_, ?_, ?_, ?_, ?_⟩
  · rw [exists_parse_name_iff hname, Key.exists_readAll_renderAll_iff hkeys]
  · rw [exists_parse_name_iff hname, Key.exists_readAll_renderAll_iff hunquoted,
      List.forall_mem_map]
    rfl
  · intro e he
    obtain ⟨hnode, hread⟩ := (parse_name_eq_ok_iff hname _).1 he
    exact ⟨hnode, Key.kept_of_readAll_renderAll hkeys hread⟩
  · intro e he
    obtain ⟨hnode, hread⟩ := (parse_name_eq_ok_iff hname _).1 he
    have hkept := Key.kept_of_readAll_renderAll hunquoted hread
    rw [List.forall₂_map_left_iff] at hkept
    exact ⟨hnode, hkept.imp fun _ _ hk => ⟨hk.1, hk.2.1⟩⟩
  · intro module segment h
    obtain ⟨rfl, hvalued, hread⟩ := reread_of_parse h
    refine ⟨⟨(parse_name_eq_ok_iff hname _).2 ⟨rfl, hread⟩, same_self hvalued⟩, ?_⟩
    have hcanonical := Key.readAll_renderAll hunquoted hvalued.unquoted
    refine ⟨⟨entry.node, Key.shownAll (entry.keys.map Key.unquoted)⟩,
      (parse_name_eq_ok_iff hname _).2 ⟨rfl, hcanonical⟩, ?_⟩
    rw [Key.shownAll, List.map_map, List.forall₂_map_right_iff, List.forall₂_same]
    intro k hk
    rw [Function.comp_apply, Key.shown_value]
    exact ⟨rfl, KeyValue.same_self_of_ofText (hvalued k hk)⟩

theorem parse_toString_canonicalKeys_mixedKeys :
    ∃ entry e e' : ListInstance,
      entry.keys = [.ofValue (.string "'a,b"), ⟨.string "5\x22", "5\x22", some .double⟩,
        .ofValue (.string "5"), .ofValue (.string "")] ∧
      entry.node.isQualified = false ∧
      parse entry.node.module? (toString entry) = .ok e ∧
      parse entry.node.module? (entry.node.name.text ++ "=" ++ entry.canonicalKeys) = .ok e' ∧
      e.keys.map Key.text = entry.keys.map Key.text ∧
      e'.keys.map Key.text = entry.keys.map Key.text := by
  let entry : ListInstance := ⟨⟨.carried ⟨"m", by decide⟩, ⟨"l", by decide⟩⟩,
    [.ofValue (.string "'a,b"), ⟨.string "5\x22", "5\x22", some .double⟩, .ofValue (.string "5"),
      .ofValue (.string "")]⟩
  obtain ⟨hdisplay, hcanonical, hkept, hkept', -⟩ :=
    parse_toString_canonicalKeys entry (List.cons_ne_nil _ _) rfl
  have hplain : ∀ k ∈ entry.keys, ¬ KeyValue.OddBoolean k.text := by decide
  obtain ⟨e, he⟩ := hdisplay.2 hplain
  obtain ⟨e', he'⟩ := hcanonical.2 hplain
  have htexts : ∀ {keys keys' : List Key},
      List.Forall₂ (fun k k' => k'.text = k.text) keys keys' →
        keys'.map Key.text = keys.map Key.text := by
    intro keys keys' h
    rw [← List.forall₂_eq_eq_eq, List.forall₂_map_left_iff, List.forall₂_map_right_iff]
    exact h.flip
  exact ⟨entry, e, e', rfl, rfl, he, he', htexts ((hkept e he).2.imp fun _ _ hk => hk.1),
    htexts ((hkept' e' he').2.imp fun _ _ hk => hk.1)⟩

end ListInstance

end Restconf
