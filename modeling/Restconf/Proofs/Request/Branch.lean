import Restconf.Proofs.Address.Operation
import Restconf.Proofs.Request.Reader

set_option autoImplicit false

/-! # The branch of a request

The path of a request is its API root, the segment of a branch and a resource; each of the parts
ends at a slash or at the end of the path. `exists_parseBelow_leadsTo` says that a request reports
just the branch and resource of its path, that the two errors of a path without branch are told
apart by the entry point, and when a request with a branch is without fault. -/

namespace Restconf.Request

open Text
open Url (AtBoundary)

/-! ## What paths mean -/

/-- The path of the API root: a slash and the entry point, or nothing if that is empty. -/
def apiRoot (entryPoint : String) : String :=
  if trimSlashes entryPoint = "" then "" else "/" ++ trimSlashes entryPoint

/-- The path leads to the branch, and on to the resource. -/
def LeadsTo (entryPoint : String) (b : Branch) (resource path : String) : Prop :=
  match b with
  | .root => path = apiRoot entryPoint ++ resource ∧ (resource = "" ∨ resource = "/")
  | .datastore =>
    path = apiRoot entryPoint ++ "/data" ++ resource ∧ AtBoundary resource.toList
  | .operations =>
    path = apiRoot entryPoint ++ "/operations" ++ resource ∧ AtBoundary resource.toList
  | .schemaLibrary =>
    path = apiRoot entryPoint ++ "/yang-library-version" ++ resource ∧ AtBoundary resource.toList

/-- There is an entry point, and the path does not lie below it. -/
def IsOutside (entryPoint path : String) : Prop :=
  trimSlashes entryPoint ≠ "" ∧
    ¬ ∃ rest : String, path = apiRoot entryPoint ++ rest ∧ AtBoundary rest.toList

theorem toList_apiRoot (entryPoint : String) :
    (apiRoot entryPoint).toList = Url.rootOf (trimSlashes entryPoint).toList := by
  unfold apiRoot Url.rootOf
  by_cases h : trimSlashes entryPoint = ""
  · simp [h]
  · simp [h]

theorem isOutside_iff (entryPoint : String) (path : List Char) :
    IsOutside entryPoint (String.ofList path) ↔
      Url.below? (trimSlashes entryPoint).toList path = none := by
  rw [IsOutside, Url.below?_eq_none_iff, ne_eq, ne_eq, String.toList_eq_nil_iff, not_exists]
  refine and_congr_right fun _ => ?_
  constructor
  · intro h rest hrest hpath
    refine h (String.ofList rest) ⟨?_, by rwa [String.toList_ofList]⟩
    rw [← String.toList_inj, String.toList_append, toList_apiRoot, String.toList_ofList,
      String.toList_ofList, hpath]
  · rintro h rest ⟨hpath, hrest⟩
    refine h rest.toList hrest ?_
    rw [← toList_apiRoot, ← String.toList_append, ← hpath, String.toList_ofList]

theorem leadsTo_iff (entryPoint : String) (b : Branch) (resource : String) (path : List Char) :
    LeadsTo entryPoint b resource (String.ofList path) ↔
      ∃ rest, Url.below? (trimSlashes entryPoint).toList path = some rest ∧
        b.Opens rest resource.toList := by
  have hroot : (∃ rest, Url.below? (trimSlashes entryPoint).toList path = some rest ∧
        b.Opens rest resource.toList) ↔
      ∃ rest, path = (apiRoot entryPoint).toList ++ rest ∧ b.Opens rest resource.toList := by
    refine exists_congr fun rest => and_congr_left fun hopens => ?_
    rw [toList_apiRoot, Url.below?_eq_some_iff_of_atBoundary hopens.atBoundary]
  have hpath : ∀ text : String, String.ofList path = text ↔ path = text.toList := by
    intro text
    rw [← String.toList_inj, String.toList_ofList]
  rw [hroot]
  cases b with
  | root =>
      have hslash : resource.toList = ['/'] ↔ resource = "/" := by
        rw [← String.toList_inj, show "/".toList = ['/'] by decide]
      simp only [Branch.opens_of_segment?_eq_none (rfl : Branch.root.segment? = none),
        String.toList_eq_nil_iff, hslash]
      simp [LeadsTo, hpath]
  | datastore | operations | schemaLibrary =>
      simp [LeadsTo, hpath, Branch.Opens, Branch.segment?]

/-! ## What a request reports -/

section

variable {r : Request} (herror : r.error = none) (hbranch : r.branch = none) (url : Url)

include herror

theorem fillParts_path : (r.fillParts url).path = String.ofList url.path := by
  obtain ⟨_, _, _, _, _, hfill⟩ := exists_fillParts_eq herror url
  rw [hfill]
  rfl

include hbranch

/-- The branch and resource of a request are those that its path below the entry point opens. -/
theorem fillParts_branch_iff (b : Branch) (resource : String) :
    (r.fillParts url).branch = some b ∧ (r.fillParts url).resource = resource ↔
      ∃ rest, Url.below? r.entryPoint.toList url.path = some rest ∧
        b.Opens rest resource.toList := by
  rcases fillParts_cases herror url with
    ⟨hbelow, hfill⟩ | ⟨rest, hbelow, hd, hfill⟩ | ⟨rest, d, hbelow, hd, harrives⟩
  · rw [hfill, hbelow]
    simp [refuse, atUrl, hbranch]
  · have hnone : (r.fillParts url).branch = none := by
      rw [hfill]
      exact hbranch
    rw [hnone, hbelow]
    constructor
    · rintro ⟨h, -⟩
      exact absurd h (by simp)
    · rintro ⟨rest', hrest, hopens⟩
      obtain rfl := Option.some.inj hrest
      rw [Destination.ofPath?_of_opens hopens] at hd
      exact absurd hd (by simp)
  · obtain ⟨q, e, hframe⟩ := harrives.frame
    rw [hframe, hbelow]
    simp only [Option.some.injEq]
    constructor
    · rintro ⟨rfl, rfl⟩
      exact ⟨rest, rfl, (Destination.opens_of_ofPath? hd).1⟩
    · rintro ⟨rest', rfl, hopens⟩
      rw [Destination.ofPath?_of_opens hopens, Option.some.injEq] at hd
      rw [← hd]
      exact ⟨rfl, String.ofList_toList⟩

/-- The address of a request is that of its resource, by the rule of its branch. -/
theorem fillParts_address {b : Branch} (hb : (r.fillParts url).branch = some b) :
    (r.fillParts url).address = b.addressOf (r.fillParts url).resource := by
  rcases fillParts_cases herror url with
    ⟨-, hfill⟩ | ⟨rest, -, -, hfill⟩ | ⟨rest, d, -, hd, harrives⟩
  · rw [hfill] at hb
    exact absurd (hbranch.symm.trans hb) (by simp)
  · rw [hfill] at hb
    exact absurd (hbranch.symm.trans hb) (by simp)
  · obtain ⟨q, e, hframe⟩ := harrives.frame
    rw [hframe] at hb ⊢
    rw [← Option.some.inj hb]
    exact (Destination.opens_of_ofPath? hd).2

omit hbranch in
/-- A request is refused as outside its entry point if nothing of its path lies below that. -/
theorem fillParts_outside_iff (path entryPoint : String) :
    (r.fillParts url).error = some (.outsideEntryPoint path entryPoint) ↔
      path = String.ofList url.path ∧ entryPoint = r.entryPoint ∧
        Url.below? r.entryPoint.toList url.path = none := by
  rcases fillParts_cases herror url with
    ⟨hbelow, hfill⟩ | ⟨rest, hbelow, -, hfill⟩ | ⟨rest, d, hbelow, -, harrives⟩
  · rw [hfill, hbelow]
    simp [refuse, eq_comm]
  · rw [hfill, hbelow]
    simp [refuse]
  · rw [hbelow]
    refine iff_of_false (fun h => ?_) (by simp)
    exact absurd (harrives.error_isBelowBranch _ h) (by simp [Error.isBelowBranch])

/-- A request is refused for its branch if its path below the entry point opens none. -/
theorem fillParts_unknown_iff (path : String) :
    (r.fillParts url).error = some (.unknownBranch path) ↔
      path = String.ofList url.path ∧ (r.fillParts url).branch = none ∧
        Url.below? r.entryPoint.toList url.path ≠ none := by
  rcases fillParts_cases herror url with
    ⟨hbelow, hfill⟩ | ⟨rest, hbelow, -, hfill⟩ | ⟨rest, d, hbelow, -, harrives⟩
  · rw [hfill, hbelow]
    simp [refuse]
  · rw [hfill, hbelow]
    simp [refuse, atUrl, hbranch, eq_comm]
  · obtain ⟨q, e, hframe⟩ := harrives.frame
    refine iff_of_false (fun h => ?_) ?_
    · exact absurd (harrives.error_isBelowBranch _ h) (by simp [Error.isBelowBranch])
    · rw [hframe]
      simp

/-- A request is without fault if it has a branch and a valid address, and its query is read without
    repeated parameter. -/
theorem fillParts_isValid_iff :
    (r.fillParts url).isValid = true ↔
      (r.fillParts url).branch ≠ none ∧ (r.fillParts url).address.isValid = true ∧
        ∃ q, Query.read url.query = .ok q ∧ q.IsUnique := by
  rcases fillParts_cases herror url with
    ⟨-, hfill⟩ | ⟨rest, -, -, hfill⟩ | ⟨rest, d, -, -, harrives⟩
  · rw [hfill, not_isValid_refuse]
    simp [refuse, atUrl, hbranch]
  · rw [hfill, not_isValid_refuse]
    simp [refuse, atUrl, hbranch]
  · obtain ⟨q, e, hframe⟩ := harrives.frame
    rw [harrives.isValid_iff, hframe]
    simp

end

/-- **The branch and resource of a request are those that its path leads to, and no others; without
    a branch it is refused as outside the entry point, or else for the branch. The address is that
    of the resource, for operations that of at most one operation, and the request is without fault
    if and only if there is a branch, the address is valid and the query is read without repeated
    parameter.** -/
theorem exists_parseBelow_leadsTo (entryPoint method url : String) (m : Method)
    (hm : Method.parse method = .ok m) :
    ∃ r, parseBelow entryPoint method url = .ok r ∧
      (r.error ≠ some .emptyUrl → (∀ scheme, r.error ≠ some (.unsupportedScheme scheme)) →
        r.path = String.ofList (Url.split url.toList).path ∧
        (∀ b resource, r.branch = some b ∧ r.resource = resource ↔
          LeadsTo entryPoint b resource r.path) ∧
        (∀ path entry, r.error = some (.outsideEntryPoint path entry) ↔
          path = r.path ∧ entry = trimSlashes entryPoint ∧ IsOutside entryPoint r.path) ∧
        (∀ path, r.error = some (.unknownBranch path) ↔
          path = r.path ∧ r.branch = none ∧ ¬ IsOutside entryPoint r.path) ∧
        (r.branch = some .operations → r.address = .parseOperation r.resource) ∧
        (r.branch = some .datastore ∨ r.branch = some .schemaLibrary →
          r.address = .parse r.resource) ∧
        (r.isValid = true ↔ r.branch ≠ none ∧ r.address.isValid = true ∧
          ∃ q, Query.read (Url.split url.toList).query = .ok q ∧ q.IsUnique)) ∧
      ∀ resource,
        ((Address.parseOperation resource).isValid = true ↔
          (Address.parse resource).isValid = true ∧ (Address.parse resource).depth ≤ 1 ∧
            ∀ s ∈ (Address.parse resource).segments, s.isList = false) ∧
        ((Address.parseOperation resource).isValid = true →
          Address.parseOperation resource = Address.parse resource) := by
  obtain ⟨r₀, hparse, -, -, hentry, hbranch, herror⟩ := exists_blank_of_parse hm entryPoint
  refine ⟨r₀.fill url, hparse url, ?_, fun resource =>
    ⟨Address.isValid_parseOperation_iff resource, Address.parseOperation_eq_parse⟩⟩
  intro hempty hscheme
  rcases fill_cases r₀ url with ⟨-, hfill⟩ | ⟨-, -, scheme, hfill⟩ | ⟨-, -, hfill⟩
  · rw [hfill] at hempty
    exact absurd rfl hempty
  · rw [hfill] at hscheme
    exact absurd rfl (hscheme scheme)
  · -- the scheme is all that is filled in so far
    obtain ⟨r, hr, hentry, hbranch, herror⟩ : ∃ r : Request,
        r = { r₀ with scheme := r₀.schemeOf (Url.split url.toList) } ∧
          r.entryPoint = trimSlashes entryPoint ∧ r.branch = none ∧ r.error = none :=
      ⟨_, rfl, hentry, hbranch, herror⟩
    have hpath := fillParts_path herror (Url.split url.toList)
    rw [hfill, ← hr]
    refine ⟨hpath, ?_, ?_, ?_, ?_, ?_, ?_⟩
    · intro b resource
      rw [hpath, leadsTo_iff, ← hentry]
      exact fillParts_branch_iff herror hbranch _ b resource
    · intro path entry
      rw [hpath, isOutside_iff, ← hentry]
      exact fillParts_outside_iff herror _ path entry
    · intro path
      rw [hpath, isOutside_iff, ← hentry]
      exact fillParts_unknown_iff herror hbranch _ path
    · intro hb
      exact fillParts_address herror hbranch _ hb
    · rintro (hb | hb)
      · exact fillParts_address herror hbranch _ hb
      · exact fillParts_address herror hbranch _ hb
    · exact fillParts_isValid_iff herror hbranch _

theorem exists_parseBelow_leadsTo_operation :
    Method.parse "post" = .ok .post ∧
      LeadsTo "/api/v1/" .operations "/m:reset" "/api/v1/operations/m:reset" ∧
      ∃ r, parseBelow "/api/v1/" "post" "HTTPS://h:1/api/v1/operations/m:reset?x=%2F#f" = .ok r ∧
        r.branch = some .operations ∧ r.resource = "/m:reset" ∧
        r.address = .parse "/m:reset" ∧ r.isValid = true := by
  have hm : Method.parse "post" = .ok .post := by decide +kernel
  have hleads : LeadsTo "/api/v1/" .operations "/m:reset" "/api/v1/operations/m:reset" :=
    ⟨by decide +kernel, Or.inr ⟨_, rfl⟩⟩
  obtain ⟨r, hr, hrequest, hoperation⟩ := exists_parseBelow_leadsTo "/api/v1/" "post"
    "HTTPS://h:1/api/v1/operations/m:reset?x=%2F#f" .post hm
  have herror : (parseBelow "/api/v1/" "post"
      "HTTPS://h:1/api/v1/operations/m:reset?x=%2F#f").map error = .ok none := by
    decide +kernel
  rw [hr, Except.map, Except.ok.injEq] at herror
  obtain ⟨hpath, hbranch, -, -, haddress, -, -⟩ :=
    hrequest (by simp [herror]) (by simp [herror])
  have hread : r.path = "/api/v1/operations/m:reset" := hpath.trans (by decide +kernel)
  obtain ⟨hb, hresource⟩ := (hbranch .operations "/m:reset").2 (hread ▸ hleads)
  have hoperated : (Address.parseOperation "/m:reset").isValid = true := by decide +kernel
  refine ⟨hm, hleads, r, hr, hb, hresource, ?_, by simp [isValid, herror]⟩
  rw [haddress hb, hresource, (hoperation "/m:reset").2 hoperated]

end Restconf.Request
