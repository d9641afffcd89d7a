import Restconf.Proofs.Request.Reader

set_option autoImplicit false

/-! # The spellings of a target

A path can be requested alone, or with a host in front, or with a scheme and a host.
`exists_parseBelow_spellings` says that this changes nothing but the reported scheme and host: what
is cut off in front of the path is just what was put there, wherever there are colons, and nothing
that is filled in later depends on it. -/

namespace Restconf.Request

open Text

/-- The request with a scheme and a host. -/
def atOrigin (r : Request) (scheme : String) (host : Option String) : Request :=
  { r with scheme := scheme, host := host }

/-! ## What the scheme and the host do not change -/

theorem fillQuery_atOrigin (r : Request) (scheme : String) (host : Option String)
    (query : List Char) :
    (r.atOrigin scheme host).fillQuery query = (r.fillQuery query).atOrigin scheme host := by
  unfold fillQuery
  cases Query.read query with
  | error e => rfl
  | ok q =>
      simp only
      cases q.requireUnique with
      | error e => rfl
      | ok _ => rfl

theorem fillDestination_atOrigin (r : Request) (scheme : String) (host : Option String)
    (d : Destination) (query : List Char) :
    (r.atOrigin scheme host).fillDestination d query =
      (r.fillDestination d query).atOrigin scheme host := by
  unfold fillDestination
  cases d.address.error? with
  | some e => rfl
  | none =>
      exact fillQuery_atOrigin
        { r with branch := some d.branch, resource := d.resource, address := d.address } scheme host
        query

/-- The parts after the scheme are filled in alike for any scheme and host. -/
theorem fillParts_atOrigin (r : Request) (scheme : String) (parts : Url) :
    { r with scheme := scheme }.fillParts parts =
      (r.fillParts { parts with scheme := none, host := none }).atOrigin scheme
        (parts.host.map String.ofList) := by
  unfold fillParts
  simp only
  cases Url.below? r.entryPoint.toList parts.path with
  | none => rfl
  | some rest =>
      simp only
      cases Destination.ofPath? rest with
      | none => rfl
      | some d =>
          exact fillDestination_atOrigin
            { r with host := none, path := String.ofList parts.path } scheme _ d parts.query

/-! ## Requests for one target -/

/-- What a URL with an allowed scheme is filled in with is decided by its path and its query. -/
theorem fill_atOrigin {r : Request} {url : String} {scheme host : Option (List Char)}
    {path query : List Char} {reported : String} (hurl : url ≠ "")
    (hsplit : Url.split url.toList = ⟨scheme, host, path, query⟩)
    (hscheme : r.schemeOf ⟨scheme, host, path, query⟩ = reported)
    (hallowed : reported ∈ Settings.allowedSchemes) :
    r.fill url =
      (r.fillParts ⟨none, none, path, query⟩).atOrigin reported (host.map String.ofList) := by
  have hcontains : Settings.allowedSchemes.contains (r.schemeOf ⟨scheme, host, path, query⟩) =
      true := by
    rw [hscheme]
    exact List.contains_iff_mem.2 hallowed
  rw [fill_of_split hurl hsplit hcontains, hscheme, fillParts_atOrigin]

theorem isScheme_of_lower_http {s : String} (h : lower s = "http" ∨ lower s = "https") :
    Url.isScheme s.toList = true := by
  have hlower : s.toList.map Char.toLower = (lower s).toList := String.toList_ofList.symm
  have hletters : s.toList.map Char.toLower ≠ [] ∧
      ∀ c ∈ s.toList.map Char.toLower, c.isAlpha = true := by
    rw [hlower]
    rcases h with h | h
    · simp [h]
    · simp [h]
  exact Url.isScheme_of_lower (by simpa using hletters.1) hletters.2

/-- **A path requested with a host in front, or with a scheme and a host, gives the same request as
    the path alone, apart from the scheme and the host that are reported.** -/
theorem exists_parseBelow_spellings (entryPoint method s h p : String) (m : Method)
    (hm : Method.parse method = .ok m)
    (hp : ∃ rest, p.toList = '/' :: rest ∧ rest.head? ≠ some '/')
    (hs : lower s = "http" ∨ lower s = "https")
    (hh : h ≠ "") (hhost : ∀ c ∈ h.toList, c ≠ '/' ∧ c ≠ '?' ∧ c ≠ '#') :
    ∃ r, parseBelow entryPoint method p = .ok r ∧ r.scheme = "http" ∧ r.host = none ∧
      parseBelow entryPoint method (s ++ "://" ++ h ++ p) = .ok (r.atOrigin (lower s) (some h)) ∧
      parseBelow entryPoint method ("//" ++ h ++ p) = .ok (r.atOrigin "http" (some h)) ∧
      (Url.OpensBare h.toList →
        parseBelow entryPoint method (h ++ p) = .ok (r.atOrigin "http" (some h))) ∧
      ∀ scheme host, (r.atOrigin scheme host).methods = r.methods := by
  obtain ⟨rest, hrest, hhead⟩ := hp
  obtain ⟨r₀, hparse, hscheme₀, -, -, -, -⟩ := exists_blank_of_parse hm entryPoint
  have hne : h.toList ≠ [] := by simpa using hh
  obtain ⟨path, query, hplain, hfull, hslashes, hbare⟩ := Url.split_spellings hhead hne hhost
  have husual : "http" ∈ Settings.allowedSchemes := by decide
  have hallowed : lower s ∈ Settings.allowedSchemes := by
    rcases hs with hs | hs
    · simp [hs, Settings.allowedSchemes]
    · simp [hs, Settings.allowedSchemes]
  -- a URL that ends in the path is not empty
  have hurl : ∀ front : String, front ++ p ≠ "" := by
    intro front hempty
    have hnil := congrArg String.toList hempty
    rw [String.toList_append, hrest] at hnil
    simp at hnil
  have hsplit : Url.split p.toList = ⟨none, none, path, query⟩ := by rw [hrest, hplain]
  have hfill : r₀.fill p = (r₀.fillParts ⟨none, none, path, query⟩).atOrigin "http" none :=
    fill_atOrigin (by simpa using hurl "") hsplit hscheme₀ husual
  have hhostText : (some h.toList).map String.ofList = some h := by
    rw [Option.map_some, String.ofList_toList]
  have hschemeless : ∀ front : String,
      Url.split (front ++ p).toList = ⟨none, some h.toList, path, query⟩ →
      parseBelow entryPoint method (front ++ p) =
        .ok ((r₀.fill p).atOrigin "http" (some h)) := by
    intro front hsplit
    rw [hparse, hfill, fill_atOrigin (hurl _) hsplit hscheme₀ husual, hhostText]
    rfl
  refine ⟨r₀.fill p, hparse p, ?_, ?_, ?_, ?_, ?_, fun _ _ => rfl⟩
  · rw [hfill, atOrigin]
  · rw [hfill, atOrigin]
  · have hsplit : Url.split (s ++ "://" ++ h ++ p).toList =
        ⟨some s.toList, some h.toList, path, query⟩ := by
      rw [← hfull s.toList (isScheme_of_lower_http hs)]
      simp [hrest]
    have hscheme : r₀.schemeOf ⟨some s.toList, some h.toList, path, query⟩ = lower s := by
      rw [schemeOf, Option.map_some, Option.getD_some, String.ofList_toList]
    rw [hparse, hfill, fill_atOrigin (hurl _) hsplit hscheme hallowed, hhostText]
    rfl
  · refine hschemeless ("//" ++ h) ?_
    rw [← hslashes]
    simp [hrest]
  · intro hopens
    refine hschemeless h ?_
    rw [← hbare hopens, String.toList_append, hrest]

theorem exists_parseBelow_spellings_port :
    ∃ r, parseBelow "restconf" "get" "/restconf/data/m:l='a:1'?x=//c:2#d" = .ok r ∧
      r.host = none ∧
      parseBelow "restconf" "get" "HtTpS://h:80/restconf/data/m:l='a:1'?x=//c:2#d" =
        .ok (r.atOrigin "https" (some "h:80")) ∧
      parseBelow "restconf" "get" "//h:80/restconf/data/m:l='a:1'?x=//c:2#d" =
        .ok (r.atOrigin "http" (some "h:80")) ∧
      parseBelow "restconf" "get" "h:80/restconf/data/m:l='a:1'?x=//c:2#d" =
        .ok (r.atOrigin "http" (some "h:80")) := by
  have hp : ∃ rest, "/restconf/data/m:l='a:1'?x=//c:2#d".toList = '/' :: rest ∧
      rest.head? ≠ some '/' :=
    ⟨"restconf/data/m:l='a:1'?x=//c:2#d".toList, by decide, by decide⟩
  have hhost : ∀ c ∈ "h:80".toList, c ≠ '/' ∧ c ≠ '?' ∧ c ≠ '#' := by simp
  have hopens : Url.OpensBare "h:80".toList := Or.inr ⟨['h'], '8', ['0'], by decide⟩
  obtain ⟨r, hr, -, hnone, hfull, hslashes, hbare, -⟩ :=
    exists_parseBelow_spellings "restconf" "get" "HtTpS" "h:80"
      "/restconf/data/m:l='a:1'?x=//c:2#d" .get (by decide +kernel) hp (Or.inr (by decide +kernel))
      (by decide) hhost
  exact ⟨r, hr, hnone, hfull, hslashes, hbare hopens⟩

end Restconf.Request
