import Restconf.Proofs.Query.Repeated
import Restconf.Proofs.Request.Destination

set_option autoImplicit false

/-! # What a request that was read says

Filling in a request goes part by part and stops at the first fault. `fill_cases` and
`fillParts_cases` say at which parts it can stop, and `Arrives` what is known of a request that
reached a branch: which fields were filled in, and that it is without fault just if its address is
valid and its query is read without repeated parameter.

`exists_destination_of_isValid` takes a request without fault apart again, and `fill_datastore` puts
one together: a path below the entry point that goes on with the branch of the datastore arrives at
the address of its resource. -/

namespace Restconf

theorem Settings.entryPoint_setEntryPoint (s : Settings) (entryPoint : String) :
    (s.setEntryPoint entryPoint).entryPoint = Text.trimSlashes entryPoint := by
  rw [Settings.entryPoint, setEntryPoint, Text.trimSlashes_trimSlashes]

namespace Request

theorem not_isValid_refuse (r : Request) (e : Error) : (r.refuse e).isValid = false := rfl

theorem error?_eq_none_iff {a : Address} : a.error? = none ↔ a.isValid = true := by
  cases a with
  | resolved _ _ => simp [Address.error?, Address.isValid]
  | rejected _ _ => simp [Address.error?, Address.isValid]

/-! ## Requests that reach a branch -/

/-- The fault is one of the address or the query, and not of what leads to the branch. -/
def Error.isBelowBranch : Error → Bool
  | .badPath _ | .badQuery _ => true
  | .emptyUrl | .unsupportedScheme _ | .outsideEntryPoint _ _ | .unknownBranch _ => false

/-- `r'` is `r` at a destination, after the address was checked and the query was read. -/
structure Arrives (r : Request) (d : Destination) (query : List Char) (r' : Request) : Prop where
  frame : ∃ q e, r' = { r with
    branch := some d.branch
    resource := d.resource
    address := d.address
    query := q
    error := e }
  isValid_iff : r'.isValid = true ↔
    d.address.isValid = true ∧ ∃ q, Query.read query = .ok q ∧ q.IsUnique
  query_eq : d.address.isValid = true → ∀ q, Query.read query = .ok q → r'.query = q
  error_isBelowBranch : ∀ e, r'.error = some e → e.isBelowBranch = true

/-- A query is malformed, repeats a parameter, or is filled in. -/
theorem fillQuery_cases (r : Request) (query : List Char) :
    (∃ e, Query.read query = .error e ∧ r.fillQuery query = r.refuse (.badQuery e)) ∨
    (∃ q e, Query.read query = .ok q ∧ ¬ q.IsUnique ∧
      r.fillQuery query = { r with query := q }.refuse (.badQuery e)) ∨
    (∃ q, Query.read query = .ok q ∧ q.IsUnique ∧ r.fillQuery query = { r with query := q }) := by
  cases hread : Query.read query with
  | error e => exact Or.inl ⟨e, rfl, by simp only [fillQuery, hread]⟩
  | ok q =>
      have hunique := q.requireUnique_eq_ok_iff
      cases hq : q.requireUnique with
      | error e =>
          have hnot : ¬ q.IsUnique := by
            rw [← hunique, hq]
            simp
          exact Or.inr (Or.inl ⟨q, e, rfl, hnot, by simp only [fillQuery, hread, hq]⟩)
      | ok _ => exact Or.inr (Or.inr ⟨q, rfl, hunique.1 hq, by simp only [fillQuery, hread, hq]⟩)

theorem fillDestination_arrives {r : Request} (hr : r.error = none) (d : Destination)
    (query : List Char) : Arrives r d query (r.fillDestination d query) := by
  -- a late fault is the error of the request that it refuses
  have hlate : ∀ {r : Request} {e : Error}, e.isBelowBranch = true →
      ∀ e', (r.refuse e).error = some e' → e'.isBelowBranch = true := by
    intro r e he e' he'
    rw [← Option.some.inj he']
    exact he
  unfold fillDestination
  cases haddress : d.address.error? with
  | some e =>
      have hvalid : ¬ d.address.isValid = true := by
        rw [← error?_eq_none_iff, haddress]
        simp
      exact ⟨⟨_, _, rfl⟩, by simp [not_isValid_refuse, hvalid], fun h => absurd h hvalid, hlate rfl⟩
  | none =>
      have hvalid : d.address.isValid = true := error?_eq_none_iff.1 haddress
      simp only
      rcases fillQuery_cases { r with
          branch := some d.branch, resource := d.resource, address := d.address } query with
        ⟨e, hread, hfill⟩ | ⟨q, e, hread, hnot, hfill⟩ | ⟨q, hread, hunique, hfill⟩
      · rw [hfill]
        refine ⟨⟨_, _, rfl⟩, ?_, ?_, hlate rfl⟩
        · simp [not_isValid_refuse, hread]
        · intro _ q hq
          rw [hread] at hq
          exact absurd hq (by simp)
      · rw [hfill]
        refine ⟨⟨_, _, rfl⟩, ?_, ?_, hlate rfl⟩
        · simp [not_isValid_refuse, hread, hnot]
        · intro _ q' hq'
          exact Except.ok.inj (hread.symm.trans hq')
      · rw [hfill]
        refine ⟨⟨_, _, rfl⟩, ?_, ?_, ?_⟩
        · simp [isValid, hr, hvalid, hread, hunique]
        · intro _ q' hq'
          exact Except.ok.inj (hread.symm.trans hq')
        · intro e he
          exact absurd (hr.symm.trans he) (by simp)

/-! ## Where a request stops -/

/-- The request with the host and the path of a URL. -/
def atUrl (r : Request) (url : Url) : Request :=
  { r with host := url.host.map String.ofList, path := String.ofList url.path }

/-- A path that opens a branch is followed to its destination. -/
theorem fillParts_of_ofPath? {r : Request} {url : Url} {rest : List Char} {d : Destination}
    (hbelow : Url.below? r.entryPoint.toList url.path = some rest)
    (hd : Destination.ofPath? rest = some d) :
    r.fillParts url = (r.atUrl url).fillDestination d url.query := by
  simp only [fillParts, hbelow, hd]
  rfl

/-- A request stops outside its entry point, at no branch, or arrives at a destination. -/
theorem fillParts_cases {r : Request} (hr : r.error = none) (url : Url) :
    (Url.below? r.entryPoint.toList url.path = none ∧
      r.fillParts url =
        (r.atUrl url).refuse (.outsideEntryPoint (String.ofList url.path) r.entryPoint)) ∨
    (∃ rest, Url.below? r.entryPoint.toList url.path = some rest ∧
      Destination.ofPath? rest = none ∧
      r.fillParts url = (r.atUrl url).refuse (.unknownBranch (String.ofList url.path))) ∨
    (∃ rest d, Url.below? r.entryPoint.toList url.path = some rest ∧
      Destination.ofPath? rest = some d ∧
      Arrives (r.atUrl url) d url.query (r.fillParts url)) := by
  cases hbelow : Url.below? r.entryPoint.toList url.path with
  | none => exact Or.inl ⟨rfl, by simp only [fillParts, hbelow]; rfl⟩
  | some rest =>
      cases hd : Destination.ofPath? rest with
      | none => exact Or.inr (Or.inl ⟨rest, rfl, hd, by simp only [fillParts, hbelow, hd]; rfl⟩)
      | some d =>
          have harrives := fillDestination_arrives (r := r.atUrl url) hr d url.query
          exact Or.inr (Or.inr ⟨rest, d, rfl, hd, fillParts_of_ofPath? hbelow hd ▸ harrives⟩)

/-- What was known before the parts stays, and the host and the path are those of the URL. -/
theorem exists_fillParts_eq {r : Request} (hr : r.error = none) (url : Url) :
    ∃ resource branch address query error, r.fillParts url = { r.atUrl url with
      resource := resource
      branch := branch
      address := address
      query := query
      error := error } := by
  rcases fillParts_cases hr url with
    ⟨-, hfill⟩ | ⟨rest, -, -, hfill⟩ | ⟨rest, d, -, -, harrives⟩
  · exact ⟨_, _, _, _, _, hfill⟩
  · exact ⟨_, _, _, _, _, hfill⟩
  · obtain ⟨q, e, hframe⟩ := harrives.frame
    exact ⟨_, _, _, _, _, hframe⟩

/-- The scheme that a URL gives a request. -/
def schemeOf (r : Request) (url : Url) : String :=
  (url.scheme.map fun s => Text.lower (String.ofList s)).getD r.scheme

/-- A request is refused for an empty URL or for its scheme, or its other parts are filled in. -/
theorem fill_cases (r : Request) (url : String) :
    (url = "" ∧ r.fill url = r.refuse .emptyUrl) ∨
    (url ≠ "" ∧ Settings.allowedSchemes.contains (r.schemeOf (Url.split url.toList)) = false ∧
      ∃ scheme, r.fill url = { r with scheme := scheme }.refuse (.unsupportedScheme scheme)) ∨
    (url ≠ "" ∧ Settings.allowedSchemes.contains (r.schemeOf (Url.split url.toList)) = true ∧
      r.fill url = { r with
        scheme := r.schemeOf (Url.split url.toList) }.fillParts (Url.split url.toList)) := by
  by_cases hurl : url = ""
  · subst hurl
    exact Or.inl ⟨rfl, rfl⟩
  · have hempty : ¬ url.isEmpty = true := by simpa using hurl
    rw [fill, if_neg hempty]
    cases hscheme : Settings.allowedSchemes.contains (r.schemeOf (Url.split url.toList)) with
    | false => exact Or.inr (Or.inl ⟨hurl, rfl, _, if_neg (by rw [← schemeOf, hscheme]; simp)⟩)
    | true => exact Or.inr (Or.inr ⟨hurl, rfl, if_pos hscheme⟩)

/-- A URL with an allowed scheme, or none, is filled in by its parts. -/
theorem fill_of_split {r : Request} {url : String} {parts : Url} (hurl : url ≠ "")
    (hsplit : Url.split url.toList = parts)
    (hscheme : Settings.allowedSchemes.contains (r.schemeOf parts) = true) :
    r.fill url = { r with scheme := r.schemeOf parts }.fillParts parts := by
  subst hsplit
  rcases fill_cases r url with ⟨hempty, -⟩ | ⟨-, hrefused, -⟩ | ⟨-, -, hfill⟩
  · exact absurd hempty hurl
  · rw [hscheme] at hrefused
    exact absurd hrefused (by simp)
  · exact hfill

theorem parse_of_method {method : String} {m : Method} (hm : Method.parse method = .ok m)
    (settings : Settings) (url : String) :
    parse settings method url = .ok ((blank settings m).fill url) := by
  rw [parse, hm]
  rfl

/-- A request with a known method is filled in from the blank one of that method. -/
theorem exists_blank_of_parse {method : String} {m : Method} (hm : Method.parse method = .ok m)
    (entryPoint : String) :
    ∃ r : Request, (∀ url, parseBelow entryPoint method url = .ok (r.fill url)) ∧
      r.scheme = Settings.usualScheme ∧ r.host = none ∧
      r.entryPoint = Text.trimSlashes entryPoint ∧ r.branch = none ∧ r.error = none := by
  exact ⟨blank (Settings.usual.setEntryPoint entryPoint) m, parse_of_method hm _, rfl, rfl,
    Settings.entryPoint_setEntryPoint _ _, rfl, rfl⟩

/-- A request without fault arrives at the destination of its path. -/
theorem exists_arrives_of_isValid {r : Request} {url : String} (hr : r.error = none)
    (h : (r.fill url).isValid = true) :
    ∃ r₀ rest d, r₀ = { r with scheme := r.schemeOf (Url.split url.toList) } ∧
      r.fill url = r₀.fillParts (Url.split url.toList) ∧
      Url.below? r.entryPoint.toList (Url.split url.toList).path = some rest ∧
      Destination.ofPath? rest = some d ∧
      Arrives (r₀.atUrl (Url.split url.toList)) d (Url.split url.toList).query (r.fill url) := by
  have hrefused : ∀ {r' : Request} {e : Error}, r.fill url ≠ r'.refuse e := by
    intro r' e hfill
    rw [hfill, not_isValid_refuse] at h
    exact absurd h (by simp)
  rcases fill_cases r url with ⟨-, hfill⟩ | ⟨-, -, scheme, hfill⟩ | ⟨-, -, hfill⟩
  · exact absurd hfill hrefused
  · exact absurd hfill hrefused
  · rcases fillParts_cases (r := { r with scheme := r.schemeOf (Url.split url.toList) }) hr
        (Url.split url.toList) with
      ⟨-, hparts⟩ | ⟨rest, -, -, hparts⟩ | ⟨rest, d, hbelow, hd, harrives⟩
    · exact absurd (hfill.trans hparts) hrefused
    · exact absurd (hfill.trans hparts) hrefused
    · exact ⟨_, rest, d, rfl, hfill, hbelow, hd, hfill ▸ harrives⟩

/-- **A request without fault lies below its entry point, has the branch and address of what
    follows, and the address is valid.** -/
theorem exists_destination_of_isValid {r : Request} {url : String} (hr : r.error = none)
    (h : (r.fill url).isValid = true) :
    ∃ rest d, Url.below? r.entryPoint.toList (Url.split url.toList).path = some rest ∧
      Destination.ofPath? rest = some d ∧ d.address.isValid = true ∧
      (r.fill url).entryPoint = r.entryPoint ∧ (r.fill url).branch = some d.branch ∧
      (r.fill url).address = d.address := by
  obtain ⟨r₀, rest, d, rfl, -, hbelow, hd, harrives⟩ := exists_arrives_of_isValid hr h
  obtain ⟨q, e, hframe⟩ := harrives.frame
  refine ⟨rest, d, hbelow, hd, (harrives.isValid_iff.1 h).1, ?_⟩
  rw [hframe]
  exact ⟨rfl, rfl, rfl⟩

/-- **A path below the entry point that goes on with the branch of the datastore arrives at the
    address of its resource.** -/
theorem fill_datastore {r : Request} {url : String} {path query resource : List Char}
    (hurl : url ≠ "") (hscheme : Settings.allowedSchemes.contains r.scheme = true)
    (hsplit : Url.split url.toList = ⟨none, none, path, query⟩)
    (hbelow : Url.below? r.entryPoint.toList path =
      some ('/' :: 'd' :: 'a' :: 't' :: 'a' :: resource))
    (hresource : Url.AtBoundary resource) :
    r.fill url = { r with host := none, path := String.ofList path }.fillDestination
      ⟨.datastore, String.ofList resource, .parse (String.ofList resource)⟩ query := by
  rw [fill_of_split hurl hsplit hscheme]
  simp only [fillParts, schemeOf, hbelow, Destination.ofPath?_data hresource, Option.map_none,
    Option.getD_none]

end Request

end Restconf
