import Restconf.Proofs.Request.Reader

set_option autoImplicit false

/-! # What a refused request holds

A request is filled in part by part, and its error is the first fault that was found, so the error
tells which parts were reached. `Request.FilledUpTo` says it for each error, and for a request
without one. Every stage of the reader that is entered with the parts of the stages before it ends
in such a request (`fillQuery_filledUpTo` up to `fill_filledUpTo`), so every request is one
(`exists_parse_filledUpTo`). -/

namespace Restconf

namespace Query

/-! ## The faults of a query -/

/-- Reading leaves repeated parameters alone. -/
theorem ne_repeated_of_readPair {cs : List Char} {e : Error} (h : readPair cs = .error e)
    (p : Parameter) : e ≠ .repeated p := by
  unfold readPair at h
  simp only at h
  split at h
  · rw [← Except.error.inj h]
    simp
  · split at h
    · exact absurd h (by simp)
    · rw [← Except.error.inj h]
      simp

theorem ne_repeated_of_readPairs {rows : List (List Char)} {e : Error}
    (h : readPairs rows = .error e) (p : Parameter) : e ≠ .repeated p := by
  induction rows with
  | nil => exact absurd h (by simp [readPairs])
  | cons row rows ih =>
      rw [readPairs] at h
      split at h
      · next hpair => exact Except.error.inj h ▸ ne_repeated_of_readPair hpair p
      · exact ih (Except.map_eq_error_iff.1 h)

theorem ne_repeated_of_read {cs : List Char} {e : Error} (h : read cs = .error e)
    (p : Parameter) : e ≠ .repeated p := by
  rw [read] at h
  exact ne_repeated_of_readPairs (Except.map_eq_error_iff.1 h) p

/-- A query is refused for a parameter that it has at least twice. -/
theorem exists_repeated_of_requireUnique {q : Query} {e : Error}
    (h : q.requireUnique = .error e) : ∃ p, e = .repeated p ∧ 2 ≤ (q.getAll p.name).length := by
  obtain ⟨p, hfirst, rfl⟩ := requireUnique_eq_error_iff.1 h
  exact ⟨p, rfl, mem_repeatedParameters_iff.1 (List.mem_of_head? hfirst)⟩

end Query

/-- The address of a resource is refused as a whole, and never in the root. -/
theorem Branch.of_error?_addressOf {b : Branch} {resource : String} {e : Address.Error}
    (h : (b.addressOf resource).error? = some e) :
    b ≠ .root ∧ e.input = resource ∧ (b.addressOf resource).segments = [] := by
  have hoperation : ∀ outcome, (Address.ofOutcome resource outcome).error? = some e →
      e.input = resource ∧ (Address.ofOutcome resource outcome).segments = [] := by
    intro outcome houtcome
    cases outcome with
    | ok segments => exact absurd houtcome (by simp [Address.ofOutcome, Address.error?])
    | error fault =>
        rw [← Option.some.inj houtcome]
        exact ⟨rfl, rfl⟩
  cases b with
  | root => exact absurd h (by simp [addressOf, Address.root, Address.ofSegments, Address.error?])
  | datastore | schemaLibrary | operations => exact ⟨by simp, hoperation _ h⟩

namespace Request

/-! ## Parts and errors -/

/-- Nothing below the entry point was found, so what is filled in from there on is still at its
    default. -/
structure IsUnresolved (r : Request) : Prop where
  resource : r.resource = ""
  branch : r.branch = none
  address : r.address = .root
  query : r.query = .empty

/-- The parts that a request holds if it stopped at this error, or at none. -/
def FilledUpTo (r : Request) : Option Error → Prop
  | some .emptyUrl => r.host = none ∧ r.path = "" ∧ r.IsUnresolved
  | some (.unsupportedScheme scheme) =>
    r.scheme = scheme ∧ r.host = none ∧ r.path = "" ∧ r.IsUnresolved
  | some (.outsideEntryPoint path entryPoint) =>
    path = r.path ∧ entryPoint = r.entryPoint ∧ r.IsUnresolved
  | some (.unknownBranch path) => path = r.path ∧ r.IsUnresolved
  | some (.badPath e) =>
    (∃ b, r.branch = some b ∧ b ≠ .root) ∧ r.address.error? = some e ∧ e.input = r.resource ∧
      r.address.segments = [] ∧ r.query = .empty
  | some (.badQuery (.repeated p)) =>
    (∃ b, r.branch = some b) ∧ r.address.isValid = true ∧ 2 ≤ (r.query.getAll p.name).length
  | some (.badQuery _) =>
    (∃ b, r.branch = some b) ∧ r.address.isValid = true ∧ r.query = .empty
  | none =>
    (∃ b, r.branch = some b) ∧ r.address.isValid = true ∧ r.scheme ∈ Settings.allowedSchemes ∧
      r.query.IsUnique

/-- An error of the query's syntax leaves no query. -/
theorem filledUpTo_badQuery {r : Request} {e : Query.Error} (he : ∀ p, e ≠ .repeated p) :
    r.FilledUpTo (some (.badQuery e)) ↔
      (∃ b, r.branch = some b) ∧ r.address.isValid = true ∧ r.query = .empty := by
  cases e with
  | repeated p => exact absurd rfl (he p)
  | badName name reason => exact Iff.rfl
  | badValue p value => exact Iff.rfl
  | badEscape value => exact Iff.rfl

/-! ## One stage after the other -/

section

variable {r : Request} (herror : r.error = none) (hscheme : r.scheme ∈ Settings.allowedSchemes)

include herror hscheme

theorem fillQuery_filledUpTo (hbranch : ∃ b, r.branch = some b) (hvalid : r.address.isValid = true)
    (hquery : r.query = .empty) (query : List Char) :
    (r.fillQuery query).FilledUpTo (r.fillQuery query).error := by
  unfold fillQuery
  cases hread : Query.read query with
  | error e =>
      have hne := Query.ne_repeated_of_read hread
      exact (filledUpTo_badQuery (r := r.refuse (.badQuery e)) hne).2 ⟨hbranch, hvalid, hquery⟩
  | ok q =>
      simp only
      cases hunique : q.requireUnique with
      | error e =>
          obtain ⟨p, rfl, htwice⟩ := Query.exists_repeated_of_requireUnique hunique
          exact ⟨hbranch, hvalid, htwice⟩
      | ok _ =>
          simp only [herror]
          exact ⟨hbranch, hvalid, hscheme, Query.requireUnique_eq_ok_iff.1 hunique⟩

theorem fillDestination_filledUpTo (hquery : r.query = .empty) {d : Destination}
    (haddress : d.address = d.branch.addressOf d.resource) (query : List Char) :
    (r.fillDestination d query).FilledUpTo (r.fillDestination d query).error := by
  unfold fillDestination
  cases hfault : d.address.error? with
  | some e =>
      obtain ⟨hroot, hinput, hsegments⟩ := Branch.of_error?_addressOf (haddress ▸ hfault)
      exact ⟨⟨d.branch, rfl, hroot⟩, hfault, hinput, haddress ▸ hsegments, hquery⟩
  | none =>
      exact fillQuery_filledUpTo (r := { r with
          branch := some d.branch, resource := d.resource, address := d.address })
        herror hscheme ⟨d.branch, rfl⟩ (error?_eq_none_iff.1 hfault) hquery query

theorem fillParts_filledUpTo (hr : r.IsUnresolved) (url : Url) :
    (r.fillParts url).FilledUpTo (r.fillParts url).error := by
  have hr' : (r.atUrl url).IsUnresolved := ⟨hr.resource, hr.branch, hr.address, hr.query⟩
  rcases fillParts_cases herror url with
    ⟨-, hfill⟩ | ⟨rest, -, -, hfill⟩ | ⟨rest, d, hbelow, hd, -⟩
  · rw [hfill]
    exact ⟨rfl, rfl, hr'.resource, hr'.branch, hr'.address, hr'.query⟩
  · rw [hfill]
    exact ⟨rfl, hr'.resource, hr'.branch, hr'.address, hr'.query⟩
  · rw [fillParts_of_ofPath? hbelow hd]
    exact fillDestination_filledUpTo (r := r.atUrl url) herror hscheme hr'.query
      (Destination.opens_of_ofPath? hd).2 url.query

end

/-- A request that is started with nothing but its method is filled in up to its error. -/
theorem fill_filledUpTo {r : Request} (herror : r.error = none) (hr : r.IsUnresolved)
    (hhost : r.host = none) (hpath : r.path = "") (url : String) :
    (r.fill url).FilledUpTo (r.fill url).error := by
  obtain ⟨hresource, hbranch, haddress, hquery⟩ := hr
  rcases fill_cases r url with ⟨-, hfill⟩ | ⟨-, -, scheme, hfill⟩ | ⟨-, hallowed, hfill⟩
  · rw [hfill]
    exact ⟨hhost, hpath, hresource, hbranch, haddress, hquery⟩
  · rw [hfill]
    exact ⟨rfl, hhost, hpath, hresource, hbranch, haddress, hquery⟩
  · rw [hfill]
    exact fillParts_filledUpTo (r := { r with scheme := r.schemeOf (Url.split url.toList) }) herror
      (List.contains_iff_mem.1 hallowed) ⟨hresource, hbranch, haddress, hquery⟩ _

/-! ## Empty URLs -/

theorem error_fillParts_ne_emptyUrl {r : Request} (herror : r.error = none) (url : Url) :
    (r.fillParts url).error ≠ some .emptyUrl := by
  rcases fillParts_cases herror url with
    ⟨-, hfill⟩ | ⟨rest, -, -, hfill⟩ | ⟨rest, d, -, -, harrives⟩
  · rw [hfill]
    simp [refuse]
  · rw [hfill]
    simp [refuse]
  · intro h
    exact absurd (harrives.error_isBelowBranch _ h) (by simp [Error.isBelowBranch])

theorem error_fill_eq_emptyUrl_iff {r : Request} (herror : r.error = none) (url : String) :
    (r.fill url).error = some .emptyUrl ↔ url = "" := by
  rcases fill_cases r url with ⟨hurl, hfill⟩ | ⟨hurl, -, scheme, hfill⟩ | ⟨hurl, -, hfill⟩
  · rw [hfill]
    exact iff_of_true rfl hurl
  · rw [hfill]
    exact iff_of_false (by simp [refuse]) hurl
  · rw [hfill]
    exact iff_of_false (error_fillParts_ne_emptyUrl
      (r := { r with scheme := r.schemeOf (Url.split url.toList) }) herror _) hurl

/-! ## Permitted methods -/

theorem method_fillParts {r : Request} (herror : r.error = none) (url : Url) :
    (r.fillParts url).method = r.method := by
  obtain ⟨_, _, _, _, _, hfill⟩ := exists_fillParts_eq herror url
  rw [hfill]
  rfl

theorem method_fill {r : Request} (herror : r.error = none) (url : String) :
    (r.fill url).method = r.method := by
  rcases fill_cases r url with ⟨-, hfill⟩ | ⟨-, -, scheme, hfill⟩ | ⟨-, -, hfill⟩
  · rw [hfill]
    rfl
  · rw [hfill]
    rfl
  · rw [hfill]
    exact method_fillParts (r := { r with scheme := r.schemeOf (Url.split url.toList) }) herror _

/-- The resource in this branch answers the method. -/
def Answers (branch : Branch) (address : Address) (m : Method) : Prop :=
  match branch with
  | .root | .schemaLibrary => m = .get ∨ m = .head ∨ m = .options
  | .datastore => True
  | .operations => address.isRoot = false ∧ (m = .post ∨ m = .options)

theorem isPermitted_iff (r : Request) :
    r.isPermitted = true ↔
      r.error = none ∧ ∃ b, r.branch = some b ∧ Answers b r.address r.method := by
  rw [isPermitted, Bool.and_eq_true, isValid, Option.isNone_iff_eq_none, List.contains_iff_mem,
    methods]
  refine and_congr_right fun _ => ?_
  cases r.branch with
  | none => simp
  | some b =>
      simp only [Option.some.injEq, exists_eq_left']
      cases b with
      | root => simp [Branch.methods, Answers]
      | schemaLibrary => simp [Branch.methods, Answers]
      | datastore => simp [Branch.methods, Answers, Method.mem_all]
      | operations => cases hroot : r.address.isRoot <;> simp [Branch.methods, Answers, hroot]

/-! ## Every request -/

/-- **The error of a request decides which of its parts are filled in, the empty URL is the only one
    refused as empty, and a request is permitted if and only if it is without error and the resource
    in its branch answers its method.** -/
theorem exists_parse_filledUpTo (settings : Settings) (method url : String) (m : Method)
    (hm : Method.parse method = .ok m) :
    ∃ r, parse settings method url = .ok r ∧ r.method = m ∧ r.FilledUpTo r.error ∧
      (r.error = some .emptyUrl ↔ url = "") ∧
      (r.isPermitted = true ↔
        r.error = none ∧ ∃ b, r.branch = some b ∧ Answers b r.address m) := by
  have hparse : parse settings method url = .ok ((blank settings m).fill url) := by
    rw [parse, hm]
    rfl
  have hmethod : ((blank settings m).fill url).method = m := method_fill rfl url
  refine ⟨_, hparse, hmethod, ?_, error_fill_eq_emptyUrl_iff rfl url, ?_⟩
  · exact fill_filledUpTo rfl ⟨rfl, rfl, rfl, rfl⟩ rfl rfl url
  · rw [isPermitted_iff, hmethod]

theorem exists_parse_filledUpTo_repeatedDepth :
    Method.parse "get" = .ok .get ∧
      ∃ r, parse ⟨"//restconf/", "HTTPS"⟩ "get" "http://h/restconf/data/m:a?depth=1&x=2&depth=3" =
          .ok r ∧
        r.error = some (.badQuery (.repeated .depth)) ∧ (∃ b, r.branch = some b) ∧
        r.address.isValid = true ∧ 2 ≤ (r.query.getAll "depth").length ∧
        ¬ r.isPermitted = true := by
  have hm : Method.parse "get" = .ok .get := by decide +kernel
  obtain ⟨r, hr, -, hfilled, -, hpermitted⟩ := exists_parse_filledUpTo ⟨"//restconf/", "HTTPS"⟩
    "get" "http://h/restconf/data/m:a?depth=1&x=2&depth=3" .get hm
  have herror : (parse ⟨"//restconf/", "HTTPS"⟩ "get"
      "http://h/restconf/data/m:a?depth=1&x=2&depth=3").map error =
        .ok (some (.badQuery (.repeated .depth))) := by
    decide +kernel
  rw [hr, Except.map, Except.ok.injEq] at herror
  rw [herror] at hfilled hpermitted
  obtain ⟨hbranch, hvalid, htwice⟩ := hfilled
  exact ⟨hm, r, hr, herror, hbranch, hvalid, htwice, fun h => absurd (hpermitted.1 h).1 (by simp)⟩

end Request

end Restconf
