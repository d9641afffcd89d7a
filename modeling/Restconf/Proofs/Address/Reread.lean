import Mathlib.Data.List.Chain
import Restconf.Proofs.Address.Tokens

set_option autoImplicit false

/-! # Segments that no reader made

Segments that were put together by hand are written as any others, but their keys can have any value
and any text. `Segment.RereadAs` says what is read of one, and `parse_renderSegments_iff` that a row
of them is read segment by segment, unless a key is an odd boolean, as long as each has its module
from itself or from the one before (`Descends`). The first few may have no module. -/

namespace Restconf

theorem ModuleScope.module?_ofModule (module : Option Identifier) (qualified : Bool) :
    (ofModule module qualified).module? = module := by
  cases module with
  | none => rfl
  | some m => cases qualified <;> rfl

namespace Segment

/-- `s'` is read of what `s` is written as: the keys are shown in quotes where they need them, and
    get the values of their texts. -/
structure RereadAs (s s' : Segment) : Prop where
  isList : s'.isList = s.isList
  nodeName : s'.nodeName = s.nodeName
  keys : List.Forall₂ Key.ReadsAs (Key.shownAll s.keys) s'.keys

theorem RereadAs.module?_eq {s s' : Segment} (h : s.RereadAs s') : s'.module? = s.module? := by
  rw [module?, module?, h.nodeName]

theorem RereadAs.name_eq {s s' : Segment} (h : s.RereadAs s') : s'.name = s.name := by
  rw [name, name, h.nodeName]

theorem RereadAs.isQualified_eq {s s' : Segment} (h : s.RereadAs s') :
    s'.nodeName.isQualified = s.nodeName.isQualified := by
  rw [h.nodeName]

/-- Of a segment something is read unless a key is an odd boolean. -/
theorem exists_rereadAs_iff {s : Segment} :
    (∃ s', s.RereadAs s') ↔ ∀ k ∈ s.keys, ¬ KeyValue.OddBoolean k.text := by
  have hkeys : (∃ keys', List.Forall₂ Key.ReadsAs (Key.shownAll s.keys) keys') ↔
      ∀ k ∈ s.keys, ¬ KeyValue.OddBoolean k.text := by
    simp only [Key.exists_readsAs_iff, Key.shownAll, List.forall_mem_map, Key.shown_text]
  rw [← hkeys]
  constructor
  · rintro ⟨s', h⟩
    exact ⟨s'.keys, h.keys⟩
  · rintro ⟨keys', h⟩
    cases s with
    | node name => exact ⟨.node name, rfl, rfl, .nil⟩
    | list entry => exact ⟨.list ⟨entry.node, keys'⟩, rfl, rfl, h⟩

/-- The segment stands below a node of module `parent` with a module that is written out only where
    it differs, or with none if `parent` is none. Its keys have no quotes, and if it is a list entry
    there is at least one. -/
structure Plain (parent module : Option Identifier) (s : Segment) : Prop where
  scope : s.nodeName.scope = .ofModule module (module ≠ parent)
  parent_eq_none : module = none → parent = none
  quote : ∀ k ∈ s.keys, k.quote = none
  keys_ne_nil : s.isList = true → s.keys ≠ []

theorem Plain.module?_eq {parent module : Option Identifier} {s : Segment}
    (h : s.Plain parent module) : s.module? = module := by
  rw [Segment.module?, NodeName.module?, h.scope, ModuleScope.module?_ofModule]

/-- A plain segment names its module just if the one above has another. -/
theorem Plain.isQualified_iff {parent module : Option Identifier} {s : Segment}
    (h : s.Plain parent module) : s.nodeName.isQualified = true ↔ s.module? ≠ parent := by
  rw [h.module?_eq, NodeName.isQualified, h.scope]
  cases module with
  | none => simp [ModuleScope.ofModule, h.parent_eq_none rfl]
  | some m =>
      by_cases hm : some m = parent
      · simp [ModuleScope.ofModule, hm]
      · simp [ModuleScope.ofModule, hm]

/-- A plain segment is its own canonical form. -/
theorem Plain.canonical_eq {parent module : Option Identifier} {s : Segment}
    (h : s.Plain parent module) : s.canonical parent = s := by
  have hnode : s.nodeName.canonical parent = s.nodeName := by
    have hmodule : s.nodeName.module? = module := h.module?_eq
    rw [NodeName.canonical, hmodule, ← h.scope]
  have hkeys : s.keys.map Key.unquoted = s.keys := by
    have hkey : ∀ k ∈ s.keys, k.unquoted = id k := by
      intro k hk
      rw [Key.unquoted, ← h.quote k hk]
      rfl
    rw [List.map_congr_left hkey, List.map_id]
  cases s with
  | node name => exact congrArg Segment.node hnode
  | list entry =>
      have hentry : (⟨entry.node.canonical parent, entry.keys.map Key.unquoted⟩ : ListInstance) =
          entry := congrArg₂ ListInstance.mk hnode hkeys
      exact congrArg Segment.list hentry

/-- The token of a plain segment leads to the scope that the segment has. -/
theorem Plain.scope_token {parent module : Option Identifier} {s : Segment}
    (h : s.Plain parent module) : s.token.scope parent = s.nodeName.scope := by
  rw [token, PathToken.scope, h.scope]
  cases module with
  | none =>
      rw [h.parent_eq_none rfl]
      rfl
  | some m =>
      by_cases hm : some m = parent
      · subst hm
        simp [ModuleScope.ofModule, ModuleScope.written?, ModuleScope.carry]
      · simp [ModuleScope.ofModule, ModuleScope.written?, hm]

end Segment

namespace Address

/-- The token of a plain segment leads to what its text is read as. -/
theorem resolves_token_iff {parent module : Option Identifier} {s s' : Segment}
    (h : s.Plain parent module) : Resolves parent s.token s' ↔ s.RereadAs s' := by
  rw [Resolves, h.scope_token]
  cases s with
  | node name =>
      constructor
      · intro hfit
        cases hfit
        exact ⟨rfl, rfl, .nil⟩
      · rintro ⟨hlist, hnode, -⟩
        cases s' with
        | node name' =>
            obtain rfl : name' = name := hnode
            exact .node
        | list entry' => exact absurd hlist (by simp [Segment.isList])
  | list entry =>
      have hne : entry.keys ≠ [] := h.keys_ne_nil rfl
      constructor
      · intro hfit
        cases hfit with
        | list hread => exact ⟨rfl, rfl, (Key.readAll_renderAll_eq_ok_iff hne).1 hread⟩
      · rintro ⟨hlist, hnode, hkeys⟩
        cases s' with
        | node name' => exact absurd hlist (by simp [Segment.isList])
        | list entry' =>
            obtain ⟨node', keys'⟩ := entry'
            obtain rfl : node' = entry.node := hnode
            exact .list ((Key.readAll_renderAll_eq_ok_iff hne).2 hkeys)

/-! ## Rows of segments -/

/-- Plain segments below a node of module `parent`, each in the module that the one before it hands
    on; `last` is the module in the end. -/
inductive Descends : Option Identifier → List Segment → Option Identifier → Prop
  | nil {parent : Option Identifier} : Descends parent [] parent
  | cons {parent module last : Option Identifier} {s : Segment} {ss : List Segment} :
      s.Plain parent module → Descends module ss last → Descends parent (s :: ss) last

theorem Descends.concat {parent module last : Option Identifier} {s : Segment}
    {ss : List Segment} (h : Descends parent ss last) (hs : s.Plain last module) :
    Descends parent (ss ++ [s]) module := by
  induction h with
  | nil => exact .cons hs .nil
  | cons hs' _ ih => exact .cons hs' (ih hs)

/-- Plain segments are their own canonical form. -/
theorem Descends.canonicalSegments_eq {parent last : Option Identifier} {ss : List Segment}
    (h : Descends parent ss last) : canonicalSegments parent ss = ss := by
  induction h with
  | nil => rfl
  | cons hs _ ih => rw [canonicalSegments, hs.canonical_eq, hs.module?_eq, ih]

/-- The first segment names its module just if it is another than `parent`. -/
theorem Descends.isQualified_head {parent last : Option Identifier} {ss : List Segment}
    (h : Descends parent ss last) :
    ∀ s ∈ ss.head?, s.nodeName.isQualified = true ↔ s.module? ≠ parent := by
  cases h with
  | nil => simp
  | cons hs _ =>
      rintro s ⟨⟩
      exact hs.isQualified_iff

/-- Each later segment names its module just if it is another than that of the one before. -/
theorem Descends.isChain_isQualified {parent last : Option Identifier} {ss : List Segment}
    (h : Descends parent ss last) :
    ss.IsChain fun s s' => s'.nodeName.isQualified = true ↔ s'.module? ≠ s.module? := by
  induction h with
  | nil => exact .nil
  | cons hs hss ih =>
      refine List.isChain_cons.2 ⟨fun s' hs' => ?_, ih⟩
      rw [hs.module?_eq]
      exact hss.isQualified_head s' hs'

theorem Descends.leads_token_iff {parent last : Option Identifier} {ss ss' : List Segment}
    (h : Descends parent ss last) :
    Leads parent (ss.map Segment.token) ss' ↔ List.Forall₂ Segment.RereadAs ss ss' := by
  induction h generalizing ss' with
  | nil =>
      rw [List.forall₂_nil_left_iff]
      constructor
      · intro hleads
        cases hleads
        rfl
      · rintro rfl
        exact .nil
  | @cons parent module last s ss hs _ ih =>
      -- what is read of a segment hands on the same module
      have hmodule : ∀ s', s.RereadAs s' → s'.module? = module := by
        intro s' hs'
        rw [hs'.module?_eq, hs.module?_eq]
      rw [List.forall₂_cons_left_iff]
      constructor
      · intro hleads
        cases hleads with
        | @cons _ _ s' _ ss' hresolves hrest =>
            have hs' := (resolves_token_iff hs).1 hresolves
            rw [hmodule s' hs'] at hrest
            exact ⟨s', ss', hs', ih.1 hrest, rfl⟩
      · rintro ⟨s', ss', hs', hss', rfl⟩
        refine .cons ((resolves_token_iff hs).2 hs') ?_
        rw [hmodule s' hs']
        exact ih.2 hss'

theorem exists_forall₂_rereadAs_iff {ss : List Segment} :
    (∃ ss', List.Forall₂ Segment.RereadAs ss ss') ↔
      ∀ s ∈ ss, ∀ k ∈ s.keys, ¬ KeyValue.OddBoolean k.text := by
  constructor
  · rintro ⟨ss', h⟩
    induction h with
    | nil => simp
    | cons hs _ ih =>
        exact List.forall_mem_cons.2 ⟨Segment.exists_rereadAs_iff.1 ⟨_, hs⟩, ih⟩
  · intro h
    induction ss with
    | nil => exact ⟨[], .nil⟩
    | cons s ss ih =>
        obtain ⟨hs, hss⟩ := List.forall_mem_cons.1 h
        obtain ⟨s', hs'⟩ := Segment.exists_rereadAs_iff.2 hs
        obtain ⟨ss', hss'⟩ := ih hss
        exact ⟨s' :: ss', .cons hs' hss'⟩

/-- **The text of plain segments is a path if and only if no key is an odd boolean, and it leads to
    the same segments, with the keys read off their texts.** -/
theorem parse_renderSegments_iff {ss : List Segment} {last : Option Identifier}
    (h : Descends none ss last) :
    ((parse (String.ofList (renderSegments ss))).isValid = true ↔
      ∀ s ∈ ss, ∀ k ∈ s.keys, ¬ KeyValue.OddBoolean k.text) ∧
    ((parse (String.ofList (renderSegments ss))).isValid = true →
      List.Forall₂ Segment.RereadAs ss (parse (String.ofList (renderSegments ss))).segments) := by
  have hread : ∀ ss', readPath (renderSegments ss) = .ok ss' ↔
      List.Forall₂ Segment.RereadAs ss ss' := by
    intro ss'
    rw [readPath_renderSegments_eq_ok_iff, h.leads_token_iff]
  constructor
  · rw [← exists_forall₂_rereadAs_iff, parse, String.toList_ofList]
    simp only [← hread]
    cases readPath (renderSegments ss) with
    | error fault => simp [ofOutcome, isValid]
    | ok ss' => simp [ofOutcome, isValid]
  · intro hvalid
    obtain ⟨ss', hparse, hpath⟩ := segments_of_isValid hvalid
    rw [String.toList_ofList] at hpath
    rw [hparse]
    exact (hread ss').1 hpath

end Address

end Restconf
