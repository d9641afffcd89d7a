import Restconf.Proofs.Address.Canonical
import Restconf.Proofs.Location.Built

set_option autoImplicit false

/-! # Built addresses are written minimally

Every segment of a built location has a module and names it only where it changes, and its keys have
no quotes. So there is nothing that its canonical path could leave out: the two written forms of its
address are one (`toString_address_eq_canonical`), and a location is this text below the location of
the root. -/

namespace Restconf

/-- Below an entry point, an address has its canonical path after the location of the root. -/
theorem Address.location_eq_root_append {a : Address} (h : a.segments ≠ []) (entryPoint : String) :
    a.location entryPoint = root.location entryPoint ++ a.canonical := by
  have hroot : root.resourceChars = [] := rfl
  have hresource : a.resourceChars = a.canonicalChars := by
    rw [resourceChars, if_neg (by simpa using h)]
  rw [location, location, canonical, ← String.ofList_append, locationChars_eq, locationChars_eq,
    hroot, hresource]
  simp

namespace Location

/-- No step leads to a node without module. -/
theorem Built.module?_ne_none {l : Location} (h : Built l) :
    ∀ s ∈ l.segments, s.module? ≠ none := by
  induction h with
  | start module name _ => exact List.forall_mem_singleton.2 (Option.some_ne_none module)
  | @enter l name _ ih =>
      exact List.forall_mem_append.2
        ⟨ih, List.forall_mem_singleton.2 (Option.some_ne_none l.module)⟩
  | @enterModule l module name _ ih =>
      refine List.forall_mem_append.2 ⟨ih, List.forall_mem_singleton.2 ?_⟩
      rw [Segment.module?, Segment.nodeName, NodeName.module?, ModuleScope.module?_ofModule]
      exact Option.some_ne_none module
  | @enterList l l' name values _ hlist ih =>
      obtain ⟨-, rfl⟩ := enterList_eq_ok_iff.1 hlist
      exact List.forall_mem_append.2
        ⟨ih, List.forall_mem_singleton.2 (Option.some_ne_none l.module)⟩
  | setQuery _ _ ih => exact ih

/-- **Each segment of a built address has a module. The first names it, and a later one names it
    just if it is another than that of the segment before. The address is written as its canonical
    path, and without a query its location is that of the root followed by this path.** -/
theorem toString_address_eq_canonical (l : Location) (h : Built l) :
    (∀ s ∈ l.address.segments, s.module? ≠ none) ∧
    (∃ s, l.address.segments.head? = some s ∧ s.nodeName.isQualified = true) ∧
    (l.address.segments.IsChain fun s s' =>
      s'.nodeName.isQualified = true ↔ s'.module? ≠ s.module?) ∧
    toString l.address = l.address.canonical ∧
    ∀ entryPoint,
      l.address.location entryPoint =
        Address.root.location entryPoint ++ toString l.address ∧
      (l.query.pairs = [] →
        l.render entryPoint = Address.root.location entryPoint ++ toString l.address) := by
  have hsegments : l.address.segments = l.segments := rfl
  have hshown : toString l.address = l.address.canonical := by
    rw [Address.canonical, Address.canonicalChars, hsegments, h.descends.canonicalSegments_eq]
    rfl
  rw [hsegments]
  refine ⟨h.module?_ne_none, ?_, h.descends.isChain_isQualified, hshown, fun entryPoint => ?_⟩
  · have hhead := List.head?_eq_some_head h.segments_ne_nil
    refine ⟨_, hhead, (h.descends.isQualified_head _ hhead).2 ?_⟩
    exact h.module?_ne_none _ (List.head_mem h.segments_ne_nil)
  · have hlocation := Address.location_eq_root_append (a := l.address) h.segments_ne_nil entryPoint
    rw [hshown]
    refine ⟨hlocation, fun hquery => ?_⟩
    have hempty : l.query.render = [] := by rw [Query.render, hquery]; rfl
    rw [← hlocation, render, hempty]
    simp [Address.location]

/-- Modules are written where they change only, also if the node below names its module again. -/
theorem toString_address_eq_canonical_switchedModule :
    ∃ l, Built l ∧ l.address.canonical = "/m:top/l=\x22'a,b\x22,,true/n:leaf/end" ∧
      toString l.address = l.address.canonical ∧
      l.render "/api/" = Address.root.location "/api/" ++ toString l.address := by
  let top : Location := start .empty ⟨"m", by decide⟩ ⟨"top", by decide⟩
  let entry : Location := { top with segments := top.segments ++
    [.list ⟨⟨.carried ⟨"m", by decide⟩, ⟨"l", by decide⟩⟩,
      [.ofValue (.string "'a,b"), .ofValue (.string ""), .ofValue (.boolean true)]⟩] }
  let leaf : Location := entry.enterModule ⟨"n", by decide⟩ ⟨"leaf", by decide⟩
  have hentry : top.enterList ⟨"l", by decide⟩ [.string "'a,b", .string "", .boolean true] =
      .ok entry := rfl
  have hbuilt : Built (leaf.enterModule ⟨"n", by decide⟩ ⟨"end", by decide⟩) :=
    .enterModule _ _ (.enterModule _ _ (.enterList _ _ (.start _ _ (Or.inl rfl)) hentry))
  obtain ⟨-, -, -, hshown, hlocation⟩ := toString_address_eq_canonical _ hbuilt
  exact ⟨_, hbuilt, by decide, hshown, (hlocation "/api/").2 rfl⟩

end Location

end Restconf
