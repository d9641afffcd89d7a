import Restconf.Proofs.Request.Spelling
import Restconf.Stored

set_option autoImplicit false

/-! # Settings that a request depends on

Settings that were stored elsewhere are kept as they came, so they may differ from what the setters
would make of them (`Settings.normalized`). A request does not see the slashes around an entry
point. It sees the letter case of the default scheme, though, unless its URL has a scheme of its
own: a scheme in capitals is reported as it is and is not an allowed one
(`parse_eq_parse_normalized_iff`). -/

namespace Restconf

namespace Settings

/-! ## Settings as they are made -/

/-- The default scheme has no capital letters. -/
def IsLower (s : Settings) : Prop :=
  Text.lower s.defaultScheme = s.defaultScheme

instance (s : Settings) : Decidable s.IsLower :=
  inferInstanceAs (Decidable (_ = _))

/-- The settings were made by setters from the usual ones. -/
inductive Built : Settings → Prop
  | usual : Built usual
  | setEntryPoint {s : Settings} (entryPoint : String) :
      Built s → Built (s.setEntryPoint entryPoint)
  | setDefaultScheme {s : Settings} (scheme : String) :
      Built s → Built (s.setDefaultScheme scheme)

/-- Setters leave no capital letters in the default scheme. -/
theorem Built.isLower {s : Settings} (h : Built s) : s.IsLower := by
  induction h with
  | usual => decide +kernel
  | setEntryPoint _ _ ih => exact ih
  | setDefaultScheme scheme _ _ => exact Text.lower_lower scheme

/-- Any settings can be stored, and come back as they were. -/
theorem ofDocument_toDocument (s : Settings) : ofDocument s.toDocument = .ok s := rfl

@[simp] theorem entryPoint_normalized (s : Settings) : s.normalized.entryPoint = s.entryPoint := by
  rw [normalized]
  exact (entryPoint_setEntryPoint usual s.entryPoint).trans (Text.trimSlashes_trimSlashes _)

theorem isLower_of_mem_allowedSchemes {scheme : String} (h : scheme ∈ allowedSchemes) :
    Text.lower scheme = scheme := by
  simp only [allowedSchemes, List.mem_cons, List.not_mem_nil, or_false] at h
  rcases h with rfl | rfl
  · decide +kernel
  · decide +kernel

end Settings

namespace Request

/-! ## The scheme of a request -/

theorem scheme_fillParts {r : Request} (hr : r.error = none) (url : Url) :
    (r.fillParts url).scheme = r.scheme := by
  obtain ⟨_, _, _, _, _, hfill⟩ := exists_fillParts_eq hr url
  rw [hfill]
  rfl

/-- A refused request reports its scheme, too. -/
theorem scheme_fill {r : Request} (hr : r.error = none) (url : String) :
    (r.fill url).scheme = r.schemeOf (Url.split url.toList) := by
  by_cases hurl : url = ""
  · subst hurl
    rfl
  · have hempty : ¬ url.isEmpty = true := by simpa using hurl
    rw [fill, if_neg hempty]
    simp only
    split
    · exact scheme_fillParts (r := { r with scheme := r.schemeOf _ }) hr _
    · rfl

theorem lower_scheme_fill_iff {r : Request} (hr : r.error = none) (url : String) :
    Text.lower (r.fill url).scheme = (r.fill url).scheme ↔
      (Url.split url.toList).scheme.isSome = true ∨ Text.lower r.scheme = r.scheme := by
  rw [scheme_fill hr, schemeOf]
  cases (Url.split url.toList).scheme with
  | none => simp
  | some scheme => simp

/-- The scheme of a URL takes the place of the default one. -/
theorem fill_of_scheme (r : Request) (scheme : String) {url : String}
    (h : (Url.split url.toList).scheme.isSome = true) :
    { r with scheme := scheme }.fill url = r.fill url := by
  obtain ⟨written, hwritten⟩ := Option.isSome_iff_exists.1 h
  simp only [fill, hwritten, Option.map_some, Option.getD_some]
  by_cases hurl : url.isEmpty = true
  · -- an empty URL has no scheme
    rw [String.isEmpty_iff] at hurl
    rw [hurl] at h
    exact absurd h (by decide)
  · rw [if_neg hurl, if_neg hurl]

/-- A scheme in capitals is refused unless the URL has another. -/
theorem error_fill_of_not_lower {r : Request} (hr : r.error = none) {url : String}
    (hnone : (Url.split url.toList).scheme = none) (hlower : Text.lower r.scheme ≠ r.scheme) :
    (r.fill url).error = some .emptyUrl ∨
      (r.fill url).error = some (.unsupportedScheme r.scheme) := by
  have hscheme : r.schemeOf (Url.split url.toList) = r.scheme := by
    rw [schemeOf, hnone]
    rfl
  rcases fill_cases r url with ⟨-, hfill⟩ | ⟨-, -, scheme, hfill⟩ | ⟨-, hallowed, -⟩
  · rw [hfill]
    exact Or.inl rfl
  · have hsame : (r.fill url).scheme = r.scheme := (scheme_fill hr url).trans hscheme
    rw [hfill] at hsame ⊢
    obtain rfl : scheme = r.scheme := hsame
    exact Or.inr rfl
  · rw [hscheme, List.contains_iff_mem] at hallowed
    exact absurd (Settings.isLower_of_mem_allowedSchemes hallowed) hlower

/-! ## Requests under normalized settings -/

theorem blank_normalized (s : Settings) (m : Method) :
    blank s.normalized m = { blank s m with scheme := Text.lower s.defaultScheme } := by
  rw [blank, Settings.entryPoint_normalized]
  rfl

theorem fill_blank_normalized_iff (s : Settings) (m : Method) (url : String) :
    (blank s m).fill url = (blank s.normalized m).fill url ↔
      (Url.split url.toList).scheme.isSome = true ∨ s.IsLower := by
  constructor
  · intro heq
    have hiff := lower_scheme_fill_iff (r := blank s m) rfl url
    refine hiff.1 ?_
    rw [heq]
    exact (lower_scheme_fill_iff (r := blank s.normalized m) rfl url).2
      (Or.inr (Text.lower_lower s.defaultScheme))
  · rintro (hscheme | hlower)
    · rw [blank_normalized]
      exact (fill_of_scheme (blank s m) _ hscheme).symm
    · rw [blank_normalized, hlower]
      rfl

/-- **A request is read alike under normalized settings, with a reported scheme in lower case, if
    and only if its method is unknown, its URL has a scheme, or the default scheme has no capital
    letters, as with all settings that setters made. Otherwise it is refused.** -/
theorem parse_eq_parse_normalized_iff (s : Settings) (method url : String) :
    (parse s method url = parse s.normalized method url ↔
      (∃ e, Method.parse method = .error e) ∨
        (Url.split url.toList).scheme.isSome = true ∨ s.IsLower) ∧
    (∀ r, parse s method url = .ok r →
      (Text.lower r.scheme = r.scheme ↔
        (Url.split url.toList).scheme.isSome = true ∨ s.IsLower) ∧
      (Text.lower r.scheme ≠ r.scheme →
        r.error = some .emptyUrl ∨ r.error = some (.unsupportedScheme s.defaultScheme))) ∧
    (s.Built → parse s method url = parse s.normalized method url ∧
      ∀ r, parse s method url = .ok r → Text.lower r.scheme = r.scheme) := by
  unfold parse
  cases Method.parse method with
  | error e => simp [Except.map]
  | ok m =>
      have hiff := fill_blank_normalized_iff s m url
      have hlower := lower_scheme_fill_iff (r := blank s m) rfl url
      simp only [Except.map, Except.ok.injEq, reduceCtorEq, exists_false, false_or, forall_eq']
      refine ⟨hiff, ⟨hlower, ?_⟩, ?_⟩
      · intro hcapital
        rw [ne_eq, hlower, not_or, Option.not_isSome_iff_eq_none] at hcapital
        exact error_fill_of_not_lower (r := blank s m) rfl hcapital.1 hcapital.2
      · intro hbuilt
        exact ⟨hiff.2 (Or.inr hbuilt.isLower), hlower.2 (Or.inr hbuilt.isLower)⟩

/-- A scheme that was stored in capitals is refused, although a setter would take it. -/
theorem parse_ne_parse_normalized_storedScheme :
    ∃ s, Settings.ofDocument (.record [("default_scheme", .text "HTTPS")]) = .ok s ∧
      ∃ r r', parse s "GET" "/restconf" = .ok r ∧
        parse s.normalized "GET" "/restconf" = .ok r' ∧ r ≠ r' ∧
        r.error = some (.unsupportedScheme "HTTPS") ∧ r.scheme = "HTTPS" ∧
        r'.isValid = true ∧ r'.scheme = "https" := by
  let s : Settings := ⟨"restconf", "HTTPS"⟩
  have hm : Method.parse "GET" = .ok .get := by decide +kernel
  have hparse : ∀ s' : Settings,
      parse s' "GET" "/restconf" = .ok ((blank s' .get).fill "/restconf") := by
    intro s'
    rw [parse, hm]
    rfl
  refine ⟨s, rfl, _, _, hparse s, hparse s.normalized, ?_, ?_, ?_, ?_, ?_⟩
  · decide +kernel
  · decide +kernel
  · decide +kernel
  · decide +kernel
  · decide +kernel

end Request

end Restconf
