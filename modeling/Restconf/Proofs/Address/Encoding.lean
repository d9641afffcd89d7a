import Restconf.Proofs.Address.Canonical
import Restconf.Proofs.Address.Reread

set_option autoImplicit false

/-! # Canonical paths as an encoding

The canonical path of an address tells of each segment its kind, its module, its name and the texts
of its keys (`Segment.Content`), and of these it loses nothing: they are read back from it, and two
addresses have one canonical path just if they agree in them (`canonical_encodes`). This holds
however an address was made, as long as its canonical path can be read at all (`Encodable`). -/

namespace Restconf

theorem Key.render_unquoted (forced : Bool) (k : Key) : k.unquoted.render forced =
    if forced || opensQuoted k.text.toList then QuoteMark.double.write k.text.toList
    else Text.Percent.encode .key k.text.toList := rfl

/-- Keys without quotes are written by their texts alone. -/
theorem Key.renderAll_unquoted_congr {keys keys' : List Key}
    (h : keys.map Key.text = keys'.map Key.text) :
    renderAll (keys.map unquoted) = renderAll (keys'.map unquoted) := by
  rw [map_eq_map_iff_forall₂] at h
  have hlone : loneEmpty (keys.map unquoted) = loneEmpty (keys'.map unquoted) := by
    cases h with
    | nil => rfl
    | cons htext hrest =>
        cases hrest with
        | nil => exact congrArg String.isEmpty htext
        | cons _ _ => rfl
  have hkeys : (keys.map unquoted).map (render (loneEmpty (keys'.map unquoted))) =
      (keys'.map unquoted).map (render (loneEmpty (keys'.map unquoted))) := by
    rw [List.map_map, List.map_map, map_eq_map_iff_forall₂]
    refine h.imp fun k k' htext => ?_
    rw [Function.comp_apply, Function.comp_apply, render_unquoted, render_unquoted, htext]
  rw [renderAll, renderAll, hlone, hkeys]

namespace Segment

/-! ## What a canonical path tells of a segment -/

/-- The kind of a segment, its module and name, and the texts of its keys. -/
structure Content where
  isList : Bool
  module? : Option Identifier
  name : Identifier
  texts : List String
  deriving Repr, DecidableEq

/-- The content of a segment, however its module and its keys are written. -/
def content (s : Segment) : Content :=
  ⟨s.isList, s.module?, s.name, s.keys.map Key.text⟩

theorem content_eq_iff {a b : Segment} : a.content = b.content ↔
    a.isList = b.isList ∧ a.module? = b.module? ∧ a.name = b.name ∧
      a.keys.map Key.text = b.keys.map Key.text := by
  simp only [content, Content.mk.injEq]

theorem module?_canonical (parent : Option Identifier) (s : Segment) :
    (s.canonical parent).module? = s.module? := by
  rw [module?, nodeName_canonical]
  exact ModuleScope.module?_ofModule _ _

theorem keys_canonical (parent : Option Identifier) (s : Segment) :
    (s.canonical parent).keys = s.keys.map Key.unquoted := by
  cases s with
  | node _ => rfl
  | list _ => rfl

theorem isList_canonical (parent : Option Identifier) (s : Segment) :
    (s.canonical parent).isList = s.isList := by
  cases s with
  | node _ => rfl
  | list _ => rfl

/-- The canonical form keeps the content. -/
theorem content_canonical (parent : Option Identifier) (s : Segment) :
    (s.canonical parent).content = s.content := by
  refine content_eq_iff.2 ⟨isList_canonical parent s, module?_canonical parent s, ?_, ?_⟩
  · rw [name, nodeName_canonical]
    rfl
  · rw [keys_canonical, List.map_map]
    rfl

/-- So does reading what was written. -/
theorem RereadAs.content_eq {s s' : Segment} (h : s.RereadAs s') : s'.content = s.content := by
  have htexts := (Key.kept_of_readsAs h.keys).imp fun _ _ hk => hk.1.symm
  exact content_eq_iff.2 ⟨h.isList, h.module?_eq, h.name_eq,
    (map_eq_map_iff_forall₂.2 htexts).symm⟩

/-- Nothing but its content is written of a segment in canonical form. -/
theorem render_canonical_congr {a b : Segment} (h : a.content = b.content)
    (parent : Option Identifier) :
    (a.canonical parent).render = (b.canonical parent).render := by
  obtain ⟨hlist, hmodule, hname, htexts⟩ := content_eq_iff.1 h
  rw [render, render, nodeName_canonical, nodeName_canonical,
    NodeName.canonical_congr hmodule hname]
  cases a with
  | node _ =>
      cases b with
      | node _ => rfl
      | list _ => exact absurd hlist (by simp [isList])
  | list entry =>
      cases b with
      | node _ => exact absurd hlist (by simp [isList])
      | list entry' =>
          have hkeys := Key.renderAll_unquoted_congr htexts
          simp only [keys] at hkeys
          simp only [canonical, renderKeys, hkeys]

/-- The canonical form is plain if the segment has a module or is below a node without one, and is
    no list entry without keys. -/
theorem plain_canonical {parent : Option Identifier} {s : Segment}
    (hmodule : s.module? = none → parent = none) (hkeys : s.isList = true → s.keys ≠ []) :
    (s.canonical parent).Plain parent s.module? := by
  refine ⟨?_, hmodule, ?_, ?_⟩
  · rw [nodeName_canonical]
    rfl
  · intro k hk
    rw [keys_canonical] at hk
    obtain ⟨k₀, -, rfl⟩ := List.mem_map.1 hk
    rfl
  · rw [isList_canonical, keys_canonical]
    intro hlist
    simpa using hkeys hlist

end Segment

namespace Address

/-! ## Rows of segments -/

theorem map_content_canonicalSegments (parent : Option Identifier) (ss : List Segment) :
    (canonicalSegments parent ss).map Segment.content = ss.map Segment.content := by
  induction ss generalizing parent with
  | nil => rfl
  | cons s ss ih => rw [canonicalSegments, List.map_cons, List.map_cons, s.content_canonical, ih]

theorem forall_text_canonicalSegments_iff (p : String → Prop) (parent : Option Identifier)
    (ss : List Segment) :
    (∀ s ∈ canonicalSegments parent ss, ∀ k ∈ s.keys, p k.text) ↔
      ∀ s ∈ ss, ∀ k ∈ s.keys, p k.text := by
  induction ss generalizing parent with
  | nil => rfl
  | cons s ss ih =>
      have hkeys : (∀ k ∈ (s.canonical parent).keys, p k.text) ↔ ∀ k ∈ s.keys, p k.text := by
        rw [Segment.keys_canonical, List.forall_mem_map]
        rfl
      rw [canonicalSegments, List.forall_mem_cons, List.forall_mem_cons, ih, hkeys]

theorem map_render_canonicalSegments_congr {ss ss' : List Segment}
    (h : ss.map Segment.content = ss'.map Segment.content) (parent : Option Identifier) :
    (canonicalSegments parent ss).map Segment.render =
      (canonicalSegments parent ss').map Segment.render := by
  rw [map_eq_map_iff_forall₂] at h
  induction h generalizing parent with
  | nil => rfl
  | cons hs _ ih =>
      -- segments of one content hand on one module
      rw [canonicalSegments, canonicalSegments, List.map_cons, List.map_cons,
        Segment.render_canonical_congr hs, (Segment.content_eq_iff.1 hs).2.1, ih]

theorem renderSegments_congr {ss ss' : List Segment}
    (h : ss.map Segment.render = ss'.map Segment.render) :
    renderSegments ss = renderSegments ss' := by
  rw [map_eq_map_iff_forall₂] at h
  cases h with
  | nil => rfl
  | @cons s s' ss ss' hs hss =>
      have hrows : ss.flatMap (fun s => '/' :: s.render) =
          ss'.flatMap (fun s => '/' :: s.render) := by
        induction hss with
        | nil => rfl
        | cons hs' _ ih => rw [List.flatMap_cons, List.flatMap_cons, hs', ih]
      simp only [renderSegments, List.flatMap_cons, hs, hrows]

/-- Nothing but the contents of its segments is written of an address in canonical form. -/
theorem canonical_congr {a b : Address}
    (h : a.segments.map Segment.content = b.segments.map Segment.content) :
    a.canonical = b.canonical := by
  rw [canonical, canonical, canonicalChars, canonicalChars,
    renderSegments_congr (map_render_canonicalSegments_congr h none)]

/-! ## Addresses whose canonical path can be read -/

/-- A path can lead to the contents of the segments: no path goes back to having no module, and
    each list entry has keys, none of which is an odd boolean. -/
structure Encodable (a : Address) : Prop where
  modules : a.segments.Pairwise fun s s' => s'.module? = none → s.module? = none
  keys_ne_nil : ∀ s ∈ a.segments, s.isList = true → s.keys ≠ []
  texts : ∀ s ∈ a.segments, ∀ k ∈ s.keys, ¬ KeyValue.OddBoolean k.text

theorem exists_descends_canonicalSegments (parent : Option Identifier) {ss : List Segment}
    (hmodules : ss.Pairwise fun s s' => s'.module? = none → s.module? = none)
    (hkeys : ∀ s ∈ ss, s.isList = true → s.keys ≠ [])
    (hparent : ∀ s ∈ ss, s.module? = none → parent = none) :
    ∃ last, Descends parent (canonicalSegments parent ss) last := by
  induction ss generalizing parent with
  | nil => exact ⟨parent, .nil⟩
  | cons s ss ih =>
      obtain ⟨hs, hss⟩ := List.pairwise_cons.1 hmodules
      obtain ⟨hkey, hkeys⟩ := List.forall_mem_cons.1 hkeys
      obtain ⟨last, hlast⟩ := ih s.module? hss hkeys hs
      exact ⟨last, .cons (Segment.plain_canonical (hparent s List.mem_cons_self) hkey) hlast⟩

/-- The canonical path of an encodable address is read, with the contents of its segments. -/
theorem Encodable.parse_canonical {a : Address} (ha : a.Encodable) :
    (parse a.canonical).isValid = true ∧
      (parse a.canonical).segments.map Segment.content = a.segments.map Segment.content := by
  obtain ⟨last, hlast⟩ := exists_descends_canonicalSegments none ha.modules ha.keys_ne_nil
    fun _ _ _ => rfl
  obtain ⟨hvalid, hreread⟩ := parse_renderSegments_iff hlast
  have htexts := (forall_text_canonicalSegments_iff (fun text => ¬ KeyValue.OddBoolean text) none
    a.segments).2 ha.texts
  have hread := hvalid.2 htexts
  have hcontents := (hreread hread).imp fun _ _ h => h.content_eq.symm
  rw [← map_eq_map_iff_forall₂, map_content_canonicalSegments] at hcontents
  exact ⟨hread, hcontents.symm⟩

/-- **The canonical path of an encodable address is read with the same depth and the same contents,
    and is canonical. Two encodable addresses have the same canonical path if and only if their
    segments have the same contents.** -/
theorem canonical_encodes (a : Address) (ha : a.Encodable) :
    (parse a.canonical).isValid = true ∧ (parse a.canonical).depth = a.depth ∧
    (parse a.canonical).segments.map Segment.content = a.segments.map Segment.content ∧
    (parse a.canonical).canonical = a.canonical ∧
    ∀ b : Address, b.Encodable →
      (a.canonical = b.canonical ↔
        a.segments.map Segment.content = b.segments.map Segment.content) := by
  obtain ⟨hvalid, hcontents⟩ := ha.parse_canonical
  refine ⟨hvalid, ?_, hcontents, canonical_congr hcontents, ?_⟩
  · simpa only [depth, List.length_map] using congrArg List.length hcontents
  · intro b hb
    refine ⟨?_, canonical_congr⟩
    intro heq
    rw [← hcontents, heq]
    exact hb.parse_canonical.2

/-- Which modules are written out and how keys are quoted makes no difference. -/
theorem canonical_encodes_quotedKeys :
    ∃ a b : Address, a.segments ≠ b.segments ∧ a.depth = 3 ∧ a.canonical = b.canonical ∧
      (parse a.canonical).isValid = true ∧ (parse a.canonical).depth = 3 ∧
      (parse a.canonical).canonical = a.canonical := by
  let top : Segment := .node ⟨.unknown, ⟨"top", by decide⟩⟩
  let a : Address := ofSegments [top,
    .list ⟨⟨.written ⟨"m", by decide⟩, ⟨"l", by decide⟩⟩,
      [⟨.string "'a,b", "'a,b", some .single⟩, .ofValue (.string ""), .ofValue (.boolean true)]⟩,
    .node ⟨.written ⟨"m", by decide⟩, ⟨"leaf", by decide⟩⟩]
  let b : Address := ofSegments [top,
    .list ⟨⟨.carried ⟨"m", by decide⟩, ⟨"l", by decide⟩⟩,
      [.ofValue (.string "'a,b"), ⟨.string "", "", some .double⟩, .ofValue (.string "true")]⟩,
    .node ⟨.carried ⟨"m", by decide⟩, ⟨"leaf", by decide⟩⟩]
  have ha : a.Encodable := ⟨by decide, by decide, by decide +kernel⟩
  have hb : b.Encodable := ⟨by decide, by decide, by decide +kernel⟩
  obtain ⟨hvalid, hdepth, -, hagain, hiff⟩ := canonical_encodes a ha
  exact ⟨a, b, by decide, rfl, (hiff b hb).2 (by decide +kernel), hvalid, hdepth, hagain⟩

end Address

end Restconf
