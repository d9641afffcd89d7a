import Restconf.Proofs.Address.Canonical
import Restconf.Proofs.Request.Reader

set_option autoImplicit false

/-! # Locations lead back

The location of a valid request to the datastore is a path below the same entry point. Whatever the
method, a request for it is valid and addresses the same resource
(`exists_parseBelow_location`): the modules that the location leaves out are those in scope anyway,
and what is not quoted in it is escaped. -/

namespace Restconf

namespace Request

open Text

/-- The path of an address in the datastore is read off whole from a URL, and so is a query after
    it, if the entry point has no character that ends a path. -/
theorem split_locationChars {entryPoint : String}
    (hentry : ∀ c, c = '?' ∨ c = '#' → c ∉ (trimSlashes entryPoint).toList) (a : Address)
    {query : List Char} (hquery : '#' ∉ query) :
    Url.split (a.locationChars entryPoint ++ if query.isEmpty then [] else '?' :: query) =
      ⟨none, none, a.locationChars entryPoint, query⟩ := by
  have hmem : ∀ c, c = '?' ∨ c = '#' → c ∉ a.locationChars entryPoint := by
    intro c hc
    have hresource := Address.not_mem_resourceChars hc a
    have hslash : c ∉ ['/', 'd', 'a', 't'] := by
      rcases hc with rfl | rfl <;> decide
    rw [Address.locationChars_eq]
    simp only [List.mem_cons, List.not_mem_nil, or_false, not_or] at hslash
    split <;> simp [hentry c hc, hresource, hslash]
  -- the first slash is followed by the trimmed entry point, or by the branch if that is empty
  obtain ⟨rest, hhead, hchars⟩ : ∃ rest : List Char, rest.head? ≠ some '/' ∧
      a.locationChars entryPoint = '/' :: rest := by
    rw [Address.locationChars_eq]
    cases he : (trimSlashes entryPoint).toList with
    | nil => exact ⟨_, by simp, rfl⟩
    | cons c entry =>
        refine ⟨c :: (entry ++ _), ?_, rfl⟩
        have hhead : (trim (· = '/') entryPoint.toList).head? = some c := by
          rw [← toList_trimSlashes, he]
          rfl
        simpa using head?_trim hhead
  rw [hchars] at hmem ⊢
  obtain ⟨hplain, hwith⟩ := Url.split_of_path hhead (hmem '?' (Or.inl rfl)) (hmem '#' (Or.inr rfl))
  cases query with
  | nil => simpa using hplain
  | cons c query => exact hwith (c :: query) hquery

theorem below?_locationChars (entryPoint : String) (a : Address) :
    Url.below? (trimSlashes entryPoint).toList (a.locationChars entryPoint) =
      some ('/' :: 'd' :: 'a' :: 't' :: 'a' :: a.resourceChars) := by
  rw [Url.below?_eq_some_iff, Address.locationChars_eq]
  by_cases he : (trimSlashes entryPoint).toList = []
  · exact Or.inl ⟨he, by simp [he]⟩
  · exact Or.inr ⟨he, by simp [he], Or.inr ⟨_, rfl⟩⟩

theorem locationChars_trimSlashes (a : Address) (entryPoint : String) :
    a.locationChars (trimSlashes entryPoint) = a.locationChars entryPoint := by
  rw [Address.locationChars_eq, Address.locationChars_eq, trimSlashes_trimSlashes]

/-- The entry point of a request without fault has no character that ends a path. -/
theorem not_mem_entryPoint_of_isValid {r : Request} {url : String} (hr : r.error = none)
    (h : (r.fill url).isValid = true) {c : Char} (hc : c = '?' ∨ c = '#') :
    c ∉ r.entryPoint.toList := by
  obtain ⟨rest, d, hbelow, -⟩ := exists_destination_of_isValid hr h
  rcases Url.below?_eq_some_iff.1 hbelow with ⟨hempty, -⟩ | ⟨-, hpath, -⟩
  · rw [hempty]
    exact List.not_mem_nil
  · -- the entry point is a front part of the path that was read
    have hnot := Url.not_mem_path_split hc url.toList
    rw [hpath] at hnot
    intro hmem
    exact hnot (List.mem_append_left _ (List.mem_cons_of_mem _ hmem))

/-- A valid request to the datastore has the address of some resource. -/
theorem exists_resource_of_isValid {entryPoint method url : String} {r : Request}
    (hr : parseBelow entryPoint method url = .ok r) (hvalid : r.isValid = true)
    (hdata : r.branch = some .datastore) :
    ∃ resource, r.address = .parse resource ∧ (Address.parse resource).isValid = true ∧
      r.entryPoint = trimSlashes entryPoint ∧
      ∀ c, c = '?' ∨ c = '#' → c ∉ (trimSlashes entryPoint).toList := by
  cases hm : Method.parse method with
  | error e => simp [parseBelow, parse, hm, Except.map] at hr
  | ok m =>
      obtain ⟨r₀, hparse, -, -, hentry₀, -, herror⟩ := exists_blank_of_parse hm entryPoint
      obtain rfl := Except.ok.inj ((hparse url).symm.trans hr)
      obtain ⟨rest, d, -, hd, haddress, hentry, hbranch, hfilled⟩ :=
        exists_destination_of_isValid herror hvalid
      rw [hbranch, Option.some.injEq] at hdata
      rw [Destination.address_of_datastore hd hdata] at haddress hfilled
      refine ⟨d.resource, hfilled, haddress, hentry.trans hentry₀, ?_⟩
      intro c hc
      rw [← hentry₀]
      exact not_mem_entryPoint_of_isValid herror hvalid hc

/-- A request for the location of an address, with a query after it if there is one, arrives at the
    resource of that location. -/
theorem exists_arrives_of_location {entryPoint method : String} {m : Method}
    (hmethod : Method.parse method = .ok m)
    (hentry : ∀ c, c = '?' ∨ c = '#' → c ∉ (trimSlashes entryPoint).toList) (a : Address)
    (query : List Char) (hquery : '#' ∉ query) :
    ∃ r₀ r, parseBelow entryPoint method (String.ofList
        (a.locationChars entryPoint ++ if query.isEmpty then [] else '?' :: query)) = .ok r ∧
      r₀.entryPoint = trimSlashes entryPoint ∧
      Arrives r₀ ⟨.datastore, String.ofList a.resourceChars, .parse (String.ofList a.resourceChars)⟩
        query r := by
  obtain ⟨r₀, hparse, hscheme, -, hentry₀, -, herror⟩ := exists_blank_of_parse hmethod entryPoint
  have hbelow := below?_locationChars entryPoint a
  rw [← hentry₀] at hbelow
  have hurl : String.ofList
      (a.locationChars entryPoint ++ if query.isEmpty then [] else '?' :: query) ≠ "" := by
    intro hempty
    have hnil := congrArg String.toList hempty
    rw [String.toList_ofList, Address.locationChars_eq] at hnil
    simp at hnil
  have hfill := fill_datastore (r := r₀) hurl (by rw [hscheme]; rfl)
    (by rw [String.toList_ofList]; exact split_locationChars hentry a hquery) hbelow
    a.resourceChars_eq
  refine ⟨{ r₀ with host := none, path := String.ofList (a.locationChars entryPoint) }, _, ?_,
    hentry₀, fillDestination_arrives ?_ _ query⟩
  · rw [hparse, hfill]
  · exact herror

/-- A location below an entry point without characters that end a path is a valid request. -/
theorem exists_parseBelow_of_location {entryPoint method : String} {m : Method} {a : Address}
    (hmethod : Method.parse method = .ok m)
    (hentry : ∀ c, c = '?' ∨ c = '#' → c ∉ (trimSlashes entryPoint).toList)
    (hvalid : (Address.parse (String.ofList a.resourceChars)).isValid = true) :
    ∃ r, parseBelow entryPoint method (a.location (trimSlashes entryPoint)) = .ok r ∧
      r.isValid = true ∧ r.branch = some .datastore ∧ r.entryPoint = trimSlashes entryPoint ∧
      r.address = .parse (String.ofList a.resourceChars) := by
  obtain ⟨r₀, r, hr, hentry₀, harrives⟩ :=
    exists_arrives_of_location hmethod hentry a [] List.not_mem_nil
  have hlocation : a.location (trimSlashes entryPoint) = String.ofList
      (a.locationChars entryPoint ++ if ([] : List Char).isEmpty then [] else ['?']) := by
    rw [Address.location, locationChars_trimSlashes]
    simp
  obtain ⟨q, e, hframe⟩ := harrives.frame
  have hunique : Query.empty.IsUnique := fun p => Nat.zero_le _
  refine ⟨r, hlocation ▸ hr, harrives.isValid_iff.2 ⟨hvalid, _, rfl, hunique⟩, ?_⟩
  rw [hframe]
  exact ⟨rfl, hentry₀, rfl⟩

/-- **The location of a valid request to the datastore is, with any method, a valid request to the
    datastore with an address of the same depth, modules, names and keys, and with the same
    location.** -/
theorem exists_parseBelow_location (entryPoint method url : String) (r : Request)
    (hr : parseBelow entryPoint method url = .ok r) (hvalid : r.isValid = true)
    (hdata : r.branch = some .datastore) (method' : String) (m' : Method)
    (hmethod : Method.parse method' = .ok m') :
    ∃ location r', r.location? = some location ∧ parseBelow entryPoint method' location = .ok r' ∧
      r'.isValid = true ∧ r'.branch = some .datastore ∧ r'.address.isValid = true ∧
      r'.address.depth = r.address.depth ∧
      r'.address.isWithin r.address = true ∧ r.address.isWithin r'.address = true ∧
      r'.address.segments.map (fun s => s.keys.map Key.text) =
        r.address.segments.map (fun s => s.keys.map Key.text) ∧
      r'.location? = some location := by
  obtain ⟨resource, haddress, hparse, hentry, hnot⟩ := exists_resource_of_isValid hr hvalid hdata
  obtain ⟨hparse', hagrees⟩ := Address.parse_resourceChars hparse
  obtain ⟨r', hr', hvalid', hdata', hentry', haddress'⟩ :=
    exists_parseBelow_of_location hmethod hnot hparse'
  refine ⟨_, r', ?_, hr', hvalid', hdata', ?_⟩
  · rw [location?, if_pos ⟨hvalid, hdata⟩, haddress, hentry]
  · rw [haddress, haddress']
    refine ⟨hparse', hagrees.length_eq.symm, ?_, ?_, (Address.texts_congr hagrees).symm, ?_⟩
    · exact Address.isWithin_of_agrees (Address.agrees_symm hagrees)
        (Address.valued_of_isValid hparse')
    · exact Address.isWithin_of_agrees hagrees (Address.valued_of_isValid hparse)
    · rw [location?, if_pos ⟨hvalid', hdata'⟩, haddress', hentry',
        Address.location_congr hagrees]

theorem exists_parseBelow_location_escapedKeys :
    ∃ r r' : Request, ∃ location,
      parseBelow "/api//v1/" "GET" "//h:80/api//v1/data/m:l='%5C%27%3F%23%2F%25,',x/m:n#f" = .ok r ∧
        r.location? = some location ∧ parseBelow "/api//v1/" "PUT" location = .ok r' ∧
        r'.location? = some location := by
  have hparse : parseBelow "/api//v1/" "GET"
      "//h:80/api//v1/data/m:l='%5C%27%3F%23%2F%25,',x/m:n#f" =
        .ok ((blank (Settings.usual.setEntryPoint "/api//v1/") .get).fill
          "//h:80/api//v1/data/m:l='%5C%27%3F%23%2F%25,',x/m:n#f") := by
    rw [parseBelow, parse, show Method.parse "GET" = .ok .get from Method.parse_name .get]
    rfl
  obtain ⟨location, r', hlocation, hr', -, -, -, -, -, -, -, hagain⟩ :=
    exists_parseBelow_location "/api//v1/" "GET" _ _ hparse (by decide +kernel) (by decide +kernel)
      "PUT" .put (Method.parse_name .put)
  exact ⟨_, r', location, hparse, hlocation, hr', hagain⟩

end Request

end Restconf
