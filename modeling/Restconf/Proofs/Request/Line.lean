import Restconf.Proofs.Query.RoundTrip
import Restconf.Proofs.Request.Filled
import Restconf.Proofs.Request.Spelling

set_option autoImplicit false

/-! # Logged requests

A request is logged as its method, its path and its query. The path of a request without fault opens
with just one slash (`exists_path_of_isValid`), so a logged target is taken for a path again,
whatever stood in front of it in the URL, and the query is read back from its own text. Requested
again, the target gives the same request, apart from the scheme and the host
(`exists_parseBelow_toString`). -/

namespace Restconf

theorem Branch.Opens.head_ne_slash {b : Branch} {rest resource : List Char}
    (h : b.Opens ('/' :: rest) resource) : rest.head? ≠ some '/' := by
  cases hb : b.segment? with
  | none =>
      obtain ⟨rfl, hresource⟩ := (opens_of_segment?_eq_none hb _ _).1 h
      obtain rfl : rest = [] := by simpa using hresource
      simp
  | some segment =>
      obtain ⟨hrest, -⟩ := (opens_of_segment hb _ _).1 h
      obtain ⟨hne, hslash⟩ := segment_wellFormed hb
      obtain ⟨c, cs, hcs⟩ := List.exists_cons_of_ne_nil hne
      rw [hcs] at hslash
      rw [(List.cons.inj hrest).2, hcs]
      simpa using fun e : c = '/' => hslash (e ▸ List.mem_cons_self)

namespace Request

open Text

/-! ## What was read -/

/-- The path of a request without fault is empty or opens with just one slash. -/
theorem exists_path_of_isValid {r : Request} {url : String} (hr : r.error = none)
    (hentry : r.entryPoint.toList.head? ≠ some '/') (h : (r.fill url).isValid = true) :
    (Url.split url.toList).path = [] ∨
      ∃ rest, (Url.split url.toList).path = '/' :: rest ∧ rest.head? ≠ some '/' := by
  obtain ⟨below, d, hbelow, hd, -⟩ := exists_destination_of_isValid hr h
  obtain ⟨hopens, -⟩ := Destination.opens_of_ofPath? hd
  rcases Url.below?_eq_some_iff.1 hbelow with ⟨-, hpath⟩ | ⟨hne, hpath, -⟩
  · rw [hpath]
    rcases hopens.atBoundary with hempty | ⟨more, rfl⟩
    · exact Or.inl hempty
    · exact Or.inr ⟨more, rfl, hopens.head_ne_slash⟩
  · refine Or.inr ⟨r.entryPoint.toList ++ below, hpath, ?_⟩
    rwa [List.head?_append_of_ne_nil _ hne]

/-- Queries that are read alike fill in the same. -/
theorem fillParts_congr_query (r : Request) {path query query' : List Char}
    (h : Query.read query = Query.read query') :
    r.fillParts ⟨none, none, path, query⟩ = r.fillParts ⟨none, none, path, query'⟩ := by
  simp only [fillParts, fillDestination, fillQuery, h]

/-- A request without fault is filled in with the path and the query of its URL, and reports the
    query as it was read. -/
theorem fill_of_isValid {r : Request} {url : String} (hr : r.error = none)
    (h : (r.fill url).isValid = true) :
    ∃ scheme host q, Query.read (Url.split url.toList).query = .ok q ∧
      (r.fill url).path = String.ofList (Url.split url.toList).path ∧ (r.fill url).query = q ∧
      r.fill url = (r.fillParts ⟨none, none, (Url.split url.toList).path,
        (Url.split url.toList).query⟩).atOrigin scheme host := by
  obtain ⟨r₀, rest, d, rfl, hfill, -, -, harrives⟩ := exists_arrives_of_isValid hr h
  obtain ⟨hvalid, q, hread, -⟩ := harrives.isValid_iff.1 h
  refine ⟨_, _, q, hread, ?_, harrives.query_eq hvalid q hread,
    hfill.trans (fillParts_atOrigin r _ _)⟩
  obtain ⟨_, _, hframe⟩ := harrives.frame
  rw [hframe]
  rfl

/-! ## What is written -/

theorem not_mem_name (m : Method) : ' ' ∉ m.name.toList := by
  cases m <;> decide

theorem toList_toString (r : Request) :
    (toString r).toList = r.method.name.toList ++ ' ' :: r.renderTarget :=
  String.toList_ofList

/-- The path and the query of a request are read off its target. -/
theorem split_renderTarget {r : Request} {rest : List Char} (hhead : rest.head? ≠ some '/')
    (hpath : r.path.toList = '/' :: rest) (hmarks : ∀ c, c = '?' ∨ c = '#' → c ∉ '/' :: rest)
    (hnames : r.query.WellNamed) :
    Url.split r.renderTarget = ⟨none, none, '/' :: rest, r.query.render⟩ := by
  obtain ⟨hplain, hwith⟩ :=
    Url.split_of_path hhead (hmarks '?' (Or.inl rfl)) (hmarks '#' (Or.inr rfl))
  rw [renderTarget, hpath]
  by_cases hempty : r.query.isEmpty = true
  · have hrender : r.query.render = [] := by
      rw [Query.render, List.isEmpty_iff.1 hempty]
      rfl
    rw [if_pos hempty, List.append_nil, hrender]
    exact hplain
  · rw [if_neg hempty]
    exact hwith _ (Query.not_mem_render hnames)

/-- The target of a request without fault fills in the same request, apart from the scheme and the
    host. -/
theorem fill_renderTarget {r : Request} {url : String} (hr : r.error = none)
    (hscheme : r.scheme ∈ Settings.allowedSchemes) (hentry : r.entryPoint.toList.head? ≠ some '/')
    (hvalid : (r.fill url).isValid = true) (hpath : (r.fill url).path ≠ "") :
    r.fill (String.ofList (r.fill url).renderTarget) = (r.fill url).atOrigin r.scheme none := by
  obtain ⟨scheme, host, q, hread, hreported, hquery, hfill⟩ := fill_of_isValid hr hvalid
  obtain ⟨rest, hrest, hhead⟩ := (exists_path_of_isValid hr hentry hvalid).resolve_left
    fun hempty => hpath (by rw [hreported, hempty, String.ofList_nil])
  have hslash : (r.fill url).path.toList = '/' :: rest := by
    rw [hreported, String.toList_ofList, hrest]
  have hnames : (r.fill url).query.WellNamed := by
    rw [hquery]
    exact Query.wellNamed_of_read hread
  have hmarks : ∀ c, c = '?' ∨ c = '#' → c ∉ '/' :: rest := by
    intro c hc
    rw [← hrest]
    exact Url.not_mem_path_split hc url.toList
  have hsplit : Url.split (String.ofList (r.fill url).renderTarget).toList =
      ⟨none, none, '/' :: rest, (r.fill url).query.render⟩ := by
    rw [String.toList_ofList]
    exact split_renderTarget hhead hslash hmarks hnames
  have htarget : String.ofList (r.fill url).renderTarget ≠ "" := by
    intro hempty
    have hnil := congrArg String.toList hempty
    rw [String.toList_ofList, renderTarget, hslash] at hnil
    simp at hnil
  -- the query was read once, and reads the same from the text that it is written as
  have hagain : Query.read (r.fill url).query.render = Query.read (Url.split url.toList).query := by
    rw [Query.read_render hnames, hread, hquery]
  rw [fill_atOrigin htarget hsplit rfl hscheme, fillParts_congr_query r hagain, ← hrest, hfill]
  rfl

/-- **A request without fault that has a path is logged as its method and its target, with a space
    in between. Requested again with that method below the same entry point, the target gives a
    request without fault that differs in nothing but the scheme and the host.** -/
theorem exists_parseBelow_toString (entryPoint method url : String) (r : Request)
    (hr : parseBelow entryPoint method url = .ok r) (hvalid : r.isValid = true)
    (hpath : r.path ≠ "") :
    ∃ (name target : String) (r' : Request),
      cut? ' ' (toString r).toList = some (name.toList, target.toList) ∧
      parseBelow entryPoint name target = .ok r' ∧ r'.isValid = true ∧
      r' = r.atOrigin "http" none := by
  cases hm : Method.parse method with
  | error e => simp [parseBelow, parse, hm, Except.map] at hr
  | ok m =>
      rw [parseBelow, parse_of_method hm, Except.ok.injEq] at hr
      subst hr
      have hentry : (blank (Settings.usual.setEntryPoint entryPoint) m).entryPoint.toList.head? ≠
          some '/' := by
        intro hhead
        rw [blank, Settings.entryPoint, toList_trimSlashes] at hhead
        exact absurd (head?_trim hhead) (by simp)
      have hscheme : "http" ∈ Settings.allowedSchemes := by decide
      have htarget := fill_renderTarget rfl hscheme hentry hvalid hpath
      refine ⟨m.name, _, _, ?_, (parse_of_method m.parse_name _ _).trans
        (congrArg Except.ok htarget), hvalid, rfl⟩
      rw [toList_toString, method_fill rfl, String.toList_ofList]
      exact cut?_eq_some_iff.2 ⟨rfl, not_mem_name m⟩

theorem exists_parseBelow_toString_spacedEntryPoint :
    ∃ r r' : Request, ∃ name target : String,
      parseBelow "/my api/" "put"
        "HTTPS://h:1/my api/data/m:l='a b,1'?depth=%31&x=%26%23&y#f" = .ok r ∧
      r.isValid = true ∧ r.path ≠ "" ∧
      cut? ' ' (toString r).toList = some (name.toList, target.toList) ∧
      parseBelow "/my api/" name target = .ok r' ∧ r' = r.atOrigin "http" none := by
  have hr : parseBelow "/my api/" "put"
      "HTTPS://h:1/my api/data/m:l='a b,1'?depth=%31&x=%26%23&y#f" =
        .ok ((blank (Settings.usual.setEntryPoint "/my api/") .put).fill
          "HTTPS://h:1/my api/data/m:l='a b,1'?depth=%31&x=%26%23&y#f") :=
    parse_of_method (by decide +kernel) _ _
  have hvalid : ((blank (Settings.usual.setEntryPoint "/my api/") .put).fill
      "HTTPS://h:1/my api/data/m:l='a b,1'?depth=%31&x=%26%23&y#f").isValid = true := by
    decide +kernel
  have hpath : ((blank (Settings.usual.setEntryPoint "/my api/") .put).fill
      "HTTPS://h:1/my api/data/m:l='a b,1'?depth=%31&x=%26%23&y#f").path ≠ "" := by
    decide +kernel
  obtain ⟨name, target, r', hline, hagain, -, hr'⟩ :=
    exists_parseBelow_toString "/my api/" "put" _ _ hr hvalid hpath
  exact ⟨_, r', name, target, hr, hvalid, hpath, hline, hagain, hr'⟩

end Request

end Restconf
