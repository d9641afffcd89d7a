import Restconf.Proofs.Location.Built
import Restconf.Proofs.Request.Location

set_option autoImplicit false

/-! # Built locations are requested

A request for a built location is read as it was built (`exists_parseBelow_render`). Its path is
canonical as it stands, so nothing of it gets lost on the way into a URL, and its query is read from
its own text. What can go wrong are only the things that the builder does not look at: keys that are
odd boolean literals, and repeated parameters. -/

namespace Restconf.Location

open Text

/-- A built location leads to the datastore, with its own segments as the resource. -/
theorem Built.resourceChars_address {l : Location} (h : Built l) :
    l.address.resourceChars = Address.renderSegments l.segments := by
  have hsegments : l.address.segments = l.segments := rfl
  have hne : l.segments.isEmpty = false := by simpa using h.segments_ne_nil
  rw [Address.resourceChars, Address.canonicalChars, hsegments, h.descends.canonicalSegments_eq]
  simp only [hne, Bool.false_eq_true, if_false]

/-- **A request for a built location is valid, with any method, if and only if no key is an odd
    boolean and the query repeats no parameter. It then addresses the datastore with the query and
    the segments that were built, and with the values of the texts of the keys.** -/
theorem exists_parseBelow_render (l : Location) (h : Built l) (entryPoint method : String)
    (m : Method) (hmethod : Method.parse method = .ok m)
    (hentry : ∀ c, c = '?' ∨ c = '#' → c ∉ (trimSlashes entryPoint).toList) :
    ∃ r, Request.parseBelow entryPoint method (l.render entryPoint) = .ok r ∧
      (r.isValid = true ↔
        (∀ s ∈ l.segments, ∀ k ∈ s.keys, ¬ KeyValue.OddBoolean k.text) ∧ l.query.IsUnique) ∧
      (r.isValid = true →
        r.branch = some .datastore ∧ r.query = l.query ∧ r.address.depth = l.depth ∧
        List.Forall₂ (fun s s' => s'.isList = s.isList ∧ s'.module? = s.module? ∧
          s'.name = s.name ∧ s'.nodeName.isQualified = s.nodeName.isQualified ∧
          List.Forall₂ (fun k k' => k'.text = k.text ∧ KeyValue.ofText k.text = .ok k'.value)
            s.keys s'.keys) l.segments r.address.segments) := by
  have hquery := Query.read_render h.wellNamed
  obtain ⟨r₀, r, hr, -, harrives⟩ := Request.exists_arrives_of_location hmethod hentry l.address
    l.query.render (Query.not_mem_render h.wellNamed)
  rw [h.resourceChars_address] at harrives
  obtain ⟨hvalid_iff, hreread⟩ := Address.parse_renderSegments_iff h.descends
  refine ⟨r, hr, ?_, ?_⟩
  · rw [harrives.isValid_iff, hvalid_iff, hquery]
    simp
  · intro hvalid
    have haddress := (harrives.isValid_iff.1 hvalid).1
    have hsegments := hreread haddress
    have hq := harrives.query_eq haddress _ hquery
    obtain ⟨q, e, hframe⟩ := harrives.frame
    have hfilled : r.branch = some .datastore ∧
        r.address = .parse (String.ofList (Address.renderSegments l.segments)) := by
      rw [hframe]
      exact ⟨rfl, rfl⟩
    refine ⟨hfilled.1, hq, ?_, ?_⟩
    · rw [hfilled.2]
      exact hsegments.length_eq.symm
    · rw [hfilled.2]
      refine hsegments.imp ?_
      intro s s' hs
      have hkeys := (Key.kept_of_readsAs hs.keys).imp fun _ _ hk => And.intro hk.1 hk.2.1
      exact ⟨hs.isList, hs.module?_eq, hs.name_eq, hs.isQualified_eq, hkeys⟩

theorem exists_parseBelow_render_switchedModule :
    ∃ l r, Built l ∧ l.depth = 3 ∧
      Request.parseBelow "/api/v1/" "get" (l.render "/api/v1/") = .ok r ∧ r.isValid = true ∧
      r.query = l.query ∧ r.address.depth = 3 := by
  let query : Query := ⟨[("depth", "1"), ("x", "#&"), ("x", "")]⟩
  let top : Location := start query ⟨"m", by decide⟩ ⟨"top", by decide⟩
  let entry : Location := { top with segments := top.segments ++
    [.list ⟨⟨.carried ⟨"m", by decide⟩, ⟨"l", by decide⟩⟩,
      [.ofValue (.string "'a,/b"), .ofValue (.boolean true), .ofValue (.string "")]⟩] }
  have hquery : Query.parse "depth=1&x=%23%26&x" = .ok query := by decide +kernel
  have hentry : top.enterList ⟨"l", by decide⟩ [.string "'a,/b", .boolean true, .string ""] =
      .ok entry := rfl
  have hbuilt : Built (entry.enterModule ⟨"n", by decide⟩ ⟨"leaf", by decide⟩) :=
    .enterModule _ _ (.enterList _ _ (.start _ _ (Or.inr ⟨_, hquery⟩)) hentry)
  have hmethod : Method.parse "get" = .ok .get := by decide +kernel
  have hclean : ∀ c, c = '?' ∨ c = '#' → c ∉ (trimSlashes "/api/v1/").toList := by
    rintro c (rfl | rfl)
    · decide +kernel
    · decide +kernel
  obtain ⟨r, hr, hvalid, hread⟩ :=
    exists_parseBelow_render _ hbuilt "/api/v1/" "get" .get hmethod hclean
  have hkeys : ∀ s ∈ (entry.enterModule ⟨"n", by decide⟩ ⟨"leaf", by decide⟩).segments,
      ∀ k ∈ s.keys, ¬ KeyValue.OddBoolean k.text := by
    decide +kernel
  have hunique : query.IsUnique := by
    intro p
    cases p <;> decide
  have hr' := hvalid.2 ⟨hkeys, hunique⟩
  obtain ⟨-, hq, hdepth, -⟩ := hread hr'
  exact ⟨_, r, hbuilt, rfl, hr, hr', hq, hdepth⟩

end Restconf.Location
