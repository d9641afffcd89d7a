import Restconf.Location
import Restconf.Proofs.Address.Printable
import Restconf.Proofs.Query.RoundTrip

set_option autoImplicit false

/-! # Written locations can stand in a header

A location is the path of an address below an entry point, and a query after it. Both are printable,
and the path holds no question mark, so the first one of a location starts its query
(`isPathText_ofSegments`). -/

namespace Restconf

open Text

/-! ## Queries -/

theorem Query.isPrintable_renderPair {pair : String × String}
    (hname : nameFault? pair.1.toList = none) : IsPrintable ['#'] (renderPair pair) := by
  obtain ⟨name, value⟩ := pair
  have hchars : IsPrintable ['#'] name.toList := by
    intro c hc
    have hpart := (nameFault?_eq_none_iff.1 hname).2 c hc
    simp only [isNameChar, Bool.or_eq_true, decide_eq_true_eq] at hpart
    have hone : IsPrintable ['#'] [c] := (isPrintable_of_namePart (by grind)).mono (by simp)
    exact hone c List.mem_cons_self
  have hencoded : IsPrintable ['#'] (Percent.encode .query value.toList) :=
    isPrintable_encode (by decide) (List.forall_mem_singleton.2 (by decide)) _
  by_cases hvalue : value = ""
  · subst hvalue
    rw [renderPair_empty]
    exact hchars
  · rw [renderPair_of_ne hvalue]
    exact isPrintable_append.2 ⟨hchars, isPrintable_cons.2 ⟨by decide, hencoded⟩⟩

theorem Query.isPrintable_render {q : Query} (h : q.WellNamed) : IsPrintable ['#'] q.render := by
  refine isPrintable_intercalate (by decide) fun row hrow => ?_
  obtain ⟨pair, hpair, rfl⟩ := List.mem_map.1 hrow
  exact isPrintable_renderPair (h pair hpair)

/-- A query with valid names is written as nothing only if it has no parameters. -/
theorem Query.render_eq_nil_iff {q : Query} (h : q.WellNamed) : q.render = [] ↔ q.pairs = [] := by
  constructor
  · intro hnil
    have hread := read_render h
    rw [hnil, show read [] = .ok empty from rfl] at hread
    rw [← Except.ok.inj hread, empty]
  · intro hnil
    rw [render, hnil]
    rfl

namespace Location

theorem toList_render (l : Location) (entryPoint : String) :
    (l.render entryPoint).toList = l.address.locationChars entryPoint ++
      if l.query.render.isEmpty then [] else '?' :: l.query.render :=
  String.toList_ofList

/-- The first question mark of a location starts its query. -/
theorem cut?_render {l : Location} {entryPoint : String}
    (hentry : IsPrintable ['?', '#'] (trimSlashes entryPoint).toList) (hquery : l.query.WellNamed) :
    cut? '?' (l.render entryPoint).toList =
      if l.query.pairs = [] then none
      else some ((l.address.location entryPoint).toList, (toString l.query).toList) := by
  have hpath : '?' ∉ l.address.locationChars entryPoint := by
    intro hmem
    exact absurd (Address.isPrintable_locationChars hentry l.address '?' hmem).2.2 (by decide)
  have hlocation : (l.address.location entryPoint).toList = l.address.locationChars entryPoint :=
    String.toList_ofList
  have hshown : (toString l.query).toList = l.query.render := String.toList_ofList
  rw [toList_render, hlocation, hshown]
  by_cases hnil : l.query.pairs = []
  · rw [(Query.render_eq_nil_iff hquery).2 hnil]
    simpa [hnil] using cut?_eq_none_iff.2 hpath
  · have hne : l.query.render ≠ [] := fun h => hnil ((Query.render_eq_nil_iff hquery).1 h)
    simpa [hnil, hne] using cut?_eq_some_iff.2 ⟨rfl, hpath⟩

theorem isPrintable_render {l : Location} {entryPoint : String}
    (hentry : IsPrintable ['?', '#'] (trimSlashes entryPoint).toList) (hquery : l.query.WellNamed) :
    IsPrintable ['#'] (l.render entryPoint).toList := by
  have hpath : IsPrintable ['#'] (l.address.locationChars entryPoint) :=
    (Address.isPrintable_locationChars hentry l.address).mono (by simp)
  rw [toList_render]
  refine isPrintable_append.2 ⟨hpath, ?_⟩
  split
  · decide
  · exact isPrintable_cons.2 ⟨by decide, Query.isPrintable_render hquery⟩

end Location

/-! ## Everything that is written -/

/-- **Both written forms of a path, whatever segments it has, are printable text with complete
    escapes and without the characters that end a path, and their slashes are those in front of the
    segments. Below a printable entry point a location is printable, too, and the first question
    mark of a location with a query that was read starts that query.** -/
theorem Address.isPathText_ofSegments (segments : List Segment) :
    IsPathText (toString (ofSegments segments)).toList ∧
    IsPathText (ofSegments segments).canonical.toList ∧
    (segments ≠ [] →
      (toString (ofSegments segments)).toList.count '/' = segments.length ∧
      (toString (ofSegments segments)).toList.splitOn '/' = [] :: segments.map Segment.render ∧
      (ofSegments segments).canonical.toList.count '/' = segments.length ∧
      (ofSegments segments).canonical.toList.splitOn '/' =
        [] :: (canonicalSegments none segments).map Segment.render) ∧
    ∀ entryPoint, IsPrintable ['?', '#'] (trimSlashes entryPoint).toList →
      IsPrintable ['?', '#'] ((ofSegments segments).location entryPoint).toList ∧
      ∀ (l : Location) (text : String), l.segments = segments → Query.parse text = .ok l.query →
        IsPrintable ['#'] (l.render entryPoint).toList ∧
        cut? '?' (l.render entryPoint).toList =
          if l.query.pairs = [] then none
          else some (((ofSegments segments).location entryPoint).toList,
            (toString l.query).toList) := by
  have hshown : (toString (ofSegments segments)).toList = renderSegments segments :=
    String.toList_ofList
  have hcanonical : (ofSegments segments).canonical.toList =
      renderSegments (canonicalSegments none segments) :=
    String.toList_ofList
  have hlocation : ∀ entryPoint, ((ofSegments segments).location entryPoint).toList =
      (ofSegments segments).locationChars entryPoint :=
    fun _ => String.toList_ofList
  rw [hshown, hcanonical]
  refine ⟨isPathText_renderSegments _, isPathText_renderSegments _, ?_, ?_⟩
  · intro hne
    have hne' := canonicalSegments_ne_nil hne none
    refine ⟨count_renderSegments hne, splitOn_renderSegments hne, ?_, splitOn_renderSegments hne'⟩
    rw [count_renderSegments hne', length_canonicalSegments]
  · intro entryPoint hentry
    refine ⟨hlocation entryPoint ▸ isPrintable_locationChars hentry _, ?_⟩
    rintro l text rfl hquery
    have hnamed := Query.wellNamed_of_read hquery
    exact ⟨Location.isPrintable_render hentry hnamed, Location.cut?_render hentry hnamed⟩

theorem Address.isPathText_ofSegments_controlCharacters :
    ∃ segments : List Segment, ∃ l : Location, segments ≠ [] ∧
      (ofSegments segments).canonical =
        "/m:l=\x22'%0D%0A%00%3F%23%2F%25\x22,%C3%A9%2Cb/leaf" ∧
      IsPathText (ofSegments segments).canonical.toList ∧
      (ofSegments segments).canonical.toList.count '/' = 2 ∧
      IsPrintable ['?', '#'] (trimSlashes "/api/v1//").toList ∧
      IsPrintable ['?', '#'] ((ofSegments segments).location "/api/v1//").toList ∧
      l.segments = segments ∧ Query.parse "depth=1&x=%3F%23é" = .ok l.query ∧
      IsPrintable ['#'] (l.render "/api/v1//").toList ∧
      cut? '?' (l.render "/api/v1//").toList =
        some (((ofSegments segments).location "/api/v1//").toList, (toString l.query).toList) := by
  let m : Identifier := ⟨"m", by decide⟩
  let segments : List Segment :=
    [.list ⟨⟨.written m, ⟨"l", by decide⟩⟩,
      [.ofValue (.string "'\r\n\x00?#/%"), ⟨.string "é,b", "é,b", some .single⟩]⟩,
    .node ⟨.written m, ⟨"leaf", by decide⟩⟩]
  let l : Location := ⟨segments, m, ⟨[("depth", "1"), ("x", "?#é")]⟩⟩
  have hentry : IsPrintable ['?', '#'] (trimSlashes "/api/v1//").toList := by decide
  have hquery : Query.parse "depth=1&x=%3F%23é" = .ok l.query := by decide +kernel
  obtain ⟨-, hcanonical, hslashes, hbelow⟩ := isPathText_ofSegments segments
  obtain ⟨-, -, hcount, -⟩ := hslashes (by decide)
  obtain ⟨hlocation, hrender⟩ := hbelow "/api/v1//" hentry
  obtain ⟨hprintable, hcut⟩ := hrender l _ rfl hquery
  exact ⟨segments, l, by decide, by decide, hcanonical, hcount, hentry, hlocation, rfl,
    hquery, hprintable, hcut⟩

end Restconf
