import Restconf.Proofs.Address.Tokens
import Restconf.Proofs.Segment

set_option autoImplicit false

/-! # Canonical paths read back

The canonical path of an address leaves out the modules that a segment shares with the one before,
and all quotes that a key can do without. It leads to segments that agree with those of the address
(`parse_canonical`): each address is within the other, and they have one canonical path. -/

namespace Restconf

/-- A module that is written only where it differs from the parent's is the module in scope, as no
    path goes back to having none. -/
theorem ModuleScope.written?_ofModule_or {module parent : Option Identifier}
    (h : module = none → parent = none) :
    (ofModule module (module ≠ parent)).written?.or parent = module := by
  cases module with
  | none => rw [h rfl]; rfl
  | some m =>
      by_cases hm : some m = parent
      · simp [ofModule, written?, hm]
      · simp [ofModule, written?, hm]

theorem Segment.nodeName_canonical (parent : Option Identifier) (s : Segment) :
    (s.canonical parent).nodeName = s.nodeName.canonical parent := by
  cases s <;> rfl

namespace Address

/-! ## Canonical segments -/

/-- The canonical form of a segment leads to one that agrees with it. -/
theorem Resolves.canonical {parent : Option Identifier} {t : PathToken} {s : Segment}
    (h : Resolves parent t s) :
    ∃ s', Resolves parent (s.canonical parent).token s' ∧ s.Agrees s' := by
  have hmodule : s.module? = none → parent = none := by
    intro hnone
    rw [h.module?_eq, Option.or_eq_none_iff] at hnone
    exact hnone.2
  have hscope : (s.canonical parent).token.module?.or parent = s.module? := by
    rw [Segment.token, s.nodeName_canonical parent]
    exact ModuleScope.written?_ofModule_or hmodule
  have hname : (s.canonical parent).token.name = s.name := by
    rw [Segment.token, Segment.name, s.nodeName_canonical parent]
    rfl
  -- the keys are written without quotes, and are read with those that they need
  obtain ⟨s', hres, hlist, hkeys⟩ : ∃ s', Resolves parent (s.canonical parent).token s' ∧
      s.isList = s'.isList ∧ s.keys.map Key.unquoted = s'.keys.map Key.unquoted := by
    obtain ⟨module?, name, raw?⟩ := t
    cases h with
    | node => exact ⟨_, .node, rfl, rfl⟩
    | @list raw keys hk =>
        have hread : Key.readAll (Key.renderAll (keys.map Key.unquoted)) =
            .ok (Key.shownAll (keys.map Key.unquoted)) :=
          Key.readAll_renderAll (by simpa using Key.ne_nil_of_readAll hk)
            (Key.valued_of_readAll hk).unquoted
        refine ⟨_, .list hread, rfl, ?_⟩
        simp only [Segment.keys, Key.map_unquoted_shownAll, List.map_map]
        rfl
  refine ⟨s', hres, hlist, ?_, ?_, hkeys⟩
  · rw [hres.module?_eq, hscope]
  · rw [hres.name_eq, hname]

/-- The canonical forms of segments that were read lead to segments that agree with them. -/
theorem Leads.canonical {parent : Option Identifier} {ts : List PathToken} {ss : List Segment}
    (h : Leads parent ts ss) :
    ∃ ss', Leads parent ((canonicalSegments parent ss).map Segment.token) ss' ∧
      List.Forall₂ Segment.Agrees ss ss' := by
  induction h with
  | nil => exact ⟨[], .nil, .nil⟩
  | @cons parent t s ts ss ht _ ih =>
      obtain ⟨s', hs', hagrees⟩ := ht.canonical
      obtain ⟨ss', hss', hall⟩ := ih
      -- agreeing segments hand on the same module
      rw [hagrees.module?] at hss'
      refine ⟨s' :: ss', ?_, .cons hagrees hall⟩
      rw [canonicalSegments, List.map_cons, hagrees.module?]
      exact .cons hs' hss'

theorem canonicalSegments_congr {ss ss' : List Segment} (h : List.Forall₂ Segment.Agrees ss ss')
    (parent : Option Identifier) : canonicalSegments parent ss = canonicalSegments parent ss' := by
  induction h generalizing parent with
  | nil => rfl
  | cons hs _ ih => rw [canonicalSegments, canonicalSegments, hs.canonical, hs.module?, ih]

/-! ## Addresses of agreeing segments -/

theorem isWithin_of_agrees {a b : Address} (h : List.Forall₂ Segment.Agrees a.segments b.segments)
    (ha : ∀ s ∈ a.segments, Key.Valued s.keys) : a.isWithin b = true := by
  rw [isWithin, Bool.and_eq_true]
  refine ⟨decide_eq_true h.length_eq.ge, all_zip_of_forall₂ ?_⟩
  have hboth := (List.forall₂_and_left _ _).2 ⟨ha, h⟩
  exact hboth.imp fun _ _ hs => hs.2.leadsTo hs.1

theorem agrees_symm {a b : Address} (h : List.Forall₂ Segment.Agrees a.segments b.segments) :
    List.Forall₂ Segment.Agrees b.segments a.segments :=
  List.Forall₂.flip (h.imp fun _ _ hs => hs.symm)

theorem canonicalChars_congr {a b : Address}
    (h : List.Forall₂ Segment.Agrees a.segments b.segments) :
    a.canonicalChars = b.canonicalChars := by
  rw [canonicalChars, canonicalChars, canonicalSegments_congr h]

theorem texts_congr {ss ss' : List Segment} (h : List.Forall₂ Segment.Agrees ss ss') :
    ss.map (fun s => s.keys.map Key.text) = ss'.map (fun s => s.keys.map Key.text) := by
  induction h with
  | nil => rfl
  | cons hs _ ih => rw [List.map_cons, List.map_cons, hs.texts, ih]

/-- **The canonical path of an address that was read leads to segments that agree with its own.** -/
theorem parse_canonical {input : String} (h : (parse input).isValid = true) :
    (parse (parse input).canonical).isValid = true ∧
      List.Forall₂ Segment.Agrees (parse input).segments
        (parse (parse input).canonical).segments := by
  obtain ⟨ss, hparse, hread⟩ := segments_of_isValid h
  obtain ⟨ts, hts⟩ := exists_leads_of_readPath hread
  obtain ⟨ss', hss', hagrees⟩ := hts.canonical
  have hcanonical : parse (parse input).canonical = resolved (parse input).canonical ss' := by
    rw [parse, canonical, canonicalChars, String.toList_ofList, hparse, segments,
      readPath_renderSegments hss']
    rfl
  rw [hcanonical, hparse]
  exact ⟨rfl, hagrees⟩

/-! ## Locations -/

/-- The part of a location below the branch of the datastore. -/
def resourceChars (a : Address) : List Char :=
  if a.segments.isEmpty then [] else a.canonicalChars

theorem locationChars_eq (a : Address) (entryPoint : String) :
    a.locationChars entryPoint =
      (if (Text.trimSlashes entryPoint).toList = [] then []
        else '/' :: (Text.trimSlashes entryPoint).toList) ++
      '/' :: 'd' :: 'a' :: 't' :: 'a' :: a.resourceChars := by
  unfold locationChars resourceChars
  cases (Text.trimSlashes entryPoint).toList <;> simp

theorem resourceChars_eq (a : Address) :
    a.resourceChars = [] ∨ ∃ more, a.resourceChars = '/' :: more := by
  unfold resourceChars canonicalChars
  split
  · exact Or.inl rfl
  · cases canonicalSegments none a.segments with
    | nil => exact Or.inr ⟨_, rfl⟩
    | cons s ss => exact Or.inr ⟨_, rfl⟩

theorem resourceChars_congr {a b : Address}
    (h : List.Forall₂ Segment.Agrees a.segments b.segments) :
    a.resourceChars = b.resourceChars := by
  have hempty : a.segments.isEmpty = b.segments.isEmpty := by
    rw [Bool.eq_iff_iff, List.isEmpty_iff_length_eq_zero, List.isEmpty_iff_length_eq_zero,
      h.length_eq]
  rw [resourceChars, resourceChars, hempty, canonicalChars_congr h]

theorem location_congr {a b : Address} (h : List.Forall₂ Segment.Agrees a.segments b.segments)
    (entryPoint : String) : a.location entryPoint = b.location entryPoint := by
  rw [location, location, locationChars_eq, locationChars_eq, resourceChars_congr h]

/-- No character that ends the path of a URL stands in a written path. -/
theorem not_mem_renderSegments {c : Char} (h : c = '?' ∨ c = '#') (ss : List Segment) :
    c ∉ renderSegments ss := by
  have hslash : c ≠ '/' := by
    rcases h with rfl | rfl <;> decide
  have hmem : c ∈ ['/', '?', '#'] := by
    rcases h with rfl | rfl <;> decide
  have hsegments : ∀ ss : List Segment, c ∉ ss.flatMap fun s => '/' :: s.render := by
    intro ss hc
    obtain ⟨s, -, hs⟩ := List.mem_flatMap.1 hc
    rcases List.mem_cons.1 hs with hs | hs
    · exact hslash hs
    · exact s.not_mem_render hmem hs
  cases ss with
  | nil => simpa [renderSegments] using hslash
  | cons s ss => exact hsegments (s :: ss)

theorem not_mem_resourceChars {c : Char} (h : c = '?' ∨ c = '#') (a : Address) :
    c ∉ a.resourceChars := by
  unfold resourceChars
  split
  · exact List.not_mem_nil
  · exact not_mem_renderSegments h _

/-- The resource of a location leads to segments that agree with those of the address. -/
theorem parse_resourceChars {input : String} (h : (parse input).isValid = true) :
    (parse (String.ofList (parse input).resourceChars)).isValid = true ∧
      List.Forall₂ Segment.Agrees (parse input).segments
        (parse (String.ofList (parse input).resourceChars)).segments := by
  unfold resourceChars
  split
  · next hempty =>
      rw [List.isEmpty_iff.1 hempty]
      exact ⟨rfl, .nil⟩
  · exact parse_canonical h

end Address

end Restconf
