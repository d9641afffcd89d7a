import Restconf.Proofs.Address.Canonical
import Restconf.Proofs.Address.Operation

set_option autoImplicit false

/-! # Rejected paths beside the root

A rejected path has no segments, and neither has the root. What tells the two apart is the fault:
`isRoot` asks for it, and a rejected path is shown as it came. `isWithin` and `location` look at the
segments only, so to them every rejected path is the root (`isWithin_location_root_iff`). -/

namespace Restconf.Address

/-! ## Addresses without segments -/

theorem segments_eq_nil_iff {x : Address} :
    x.segments = [] ↔ x.isRoot = true ∨ x.isValid = false := by
  cases x with
  | resolved input read => simp [isRoot, isValid, segments]
  | rejected input fault => simp [isValid, segments]

theorem renderSegments_ne_nil (segments : List Segment) : renderSegments segments ≠ [] := by
  cases segments <;> simp [renderSegments]

theorem resourceChars_eq_nil_iff {x : Address} : x.resourceChars = [] ↔ x.segments = [] := by
  rw [resourceChars, canonicalChars]
  split
  · next hempty => simpa using hempty
  · next hempty => exact iff_of_false (renderSegments_ne_nil _) (by simpa using hempty)

/-- Every address is within those without segments, and the root is within no other. -/
theorem forall_isWithin_iff {x : Address} :
    (∀ a : Address, a.isWithin x = true) ↔ x.segments = [] := by
  constructor
  · intro h
    have hdepth : x.depth ≤ root.depth := by
      have hroot := h root
      rw [isWithin, Bool.and_eq_true] at hroot
      exact of_decide_eq_true hroot.1
    exact List.eq_nil_of_length_eq_zero (Nat.le_zero.1 hdepth)
  · intro h a
    simp [isWithin, depth, h]

theorem location_eq_root_iff {x : Address} (entryPoint : String) :
    x.location entryPoint = root.location entryPoint ↔ x.segments = [] := by
  have hroot : root.resourceChars = [] := rfl
  rw [location, location, String.ofList_inj, locationChars_eq, locationChars_eq, hroot,
    List.append_cancel_left_eq]
  simpa using resourceChars_eq_nil_iff

/-! ## Reading -/

theorem readPath_eq_ok_nil_iff {cs : List Char} : readPath cs = .ok [] ↔ cs = [] ∨ cs = ['/'] := by
  rw [readPath_eq_ok_iff]
  constructor
  · rintro (⟨hcs, -⟩ | ⟨ts, hne, -, -, hts⟩)
    · exact hcs
    · exact absurd (List.eq_nil_of_length_eq_zero hts.length_eq.symm) hne
  · exact fun hcs => Or.inl ⟨hcs, rfl⟩

theorem isRoot_ofOutcome_iff {input : String} {outcome : Except Fault (List Segment)} :
    (ofOutcome input outcome).isRoot = true ↔ outcome = .ok [] := by
  cases outcome <;> simp [ofOutcome, isRoot, isValid, segments]

theorem isRoot_parse_iff {path : String} :
    (parse path).isRoot = true ↔ path = "" ∨ path = "/" := by
  rw [parse, isRoot_ofOutcome_iff, readPath_eq_ok_nil_iff, ← @String.toList_inj path "",
    ← @String.toList_inj path "/"]
  rfl

theorem isRoot_parseOperation_iff {path : String} :
    (parseOperation path).isRoot = true ↔ path = "" ∨ path = "/" := by
  have hnames : NamesOperation [] := ⟨Nat.zero_le 1, by simp⟩
  rw [← isRoot_parse_iff, parse, parseOperation, isRoot_ofOutcome_iff, isRoot_ofOutcome_iff,
    readOperation_eq_ok_iff, and_iff_left hnames]

/-- A rejected path is shown as it came, together with its fault. -/
theorem shown_of_not_isValid {input : String} {outcome : Except Fault (List Segment)}
    (h : (ofOutcome input outcome).isValid = false) :
    toString (ofOutcome input outcome) = input ∧
      ∃ fault, (ofOutcome input outcome).error? = some ⟨input, fault⟩ := by
  cases outcome with
  | ok segments => exact absurd h (by simp [ofOutcome, isValid])
  | error fault => exact ⟨String.ofList_toList, fault, rfl⟩

theorem isRoot_eq_false {x : Address} (h : x.isValid = false) : x.isRoot = false := by
  rw [isRoot, h, Bool.false_and]

/-! ## Which addresses stand for the root -/

/-- **The address of a path is the root just for the two paths of the root. Every address is within
    it, and it has the location of the root below any entry point, just if it is the root or was
    rejected; a rejected address says that it is not the root, and shows its path and its
    fault.** -/
theorem isWithin_location_root_iff (path : String) :
    ∀ x ∈ [parse path, parseOperation path],
      (x.isRoot = true ↔ path = "" ∨ path = "/") ∧
      ((∀ a : Address, a.isWithin x = true) ↔ x.isRoot = true ∨ x.isValid = false) ∧
      (∀ entryPoint, x.location entryPoint = root.location entryPoint ↔
        x.isRoot = true ∨ x.isValid = false) ∧
      (x.isValid = false → x.isRoot = false ∧ toString x = path ∧ toString x ≠ toString root ∧
        ∃ fault, x.error? = some ⟨path, fault⟩) := by
  intro x hx
  rw [List.mem_cons, List.mem_singleton] at hx
  have hroot : x.isRoot = true ↔ path = "" ∨ path = "/" := by
    rcases hx with rfl | rfl
    · exact isRoot_parse_iff
    · exact isRoot_parseOperation_iff
  have hshown : x.isValid = false →
      toString x = path ∧ ∃ fault, x.error? = some ⟨path, fault⟩ := by
    rcases hx with rfl | rfl
    · exact shown_of_not_isValid
    · exact shown_of_not_isValid
  simp only [← segments_eq_nil_iff]
  refine ⟨hroot, forall_isWithin_iff, location_eq_root_iff, fun hvalid => ?_⟩
  obtain ⟨htext, hfault⟩ := hshown hvalid
  have hfalse := isRoot_eq_false hvalid
  refine ⟨hfalse, htext, fun heq => ?_, hfault⟩
  -- the text of the root is a path of the root
  have hslash : path = "/" := htext.symm.trans heq
  rw [hroot.2 (Or.inr hslash)] at hfalse
  exact absurd hfalse (by simp)

theorem isWithin_location_root_iff_trailingSlash :
    (parse "/a/").isValid = false ∧ (parse "/a/").isRoot = false ∧
      (parse "/a").isWithin (parse "/a/") = true ∧
      (parse "/a/").location "restconf" = root.location "restconf" := by
  have hvalid : (parse "/a/").isValid = false := by decide
  obtain ⟨-, hwithin, hlocation, hrejected⟩ :=
    isWithin_location_root_iff "/a/" (parse "/a/") List.mem_cons_self
  exact ⟨hvalid, (hrejected hvalid).1, hwithin.2 (Or.inr hvalid) (parse "/a"),
    (hlocation "restconf").2 (Or.inr hvalid)⟩

/-- Rejected paths are not told apart from the root by every view. -/
theorem not_isWithin_location_apart :
    ¬ ∀ path, ∀ x ∈ [parse path, parseOperation path], x.isValid = false →
      x.isRoot = false ∧ (∀ a : Address, a.isValid = true → a.isWithin x = false) ∧
      ∀ entryPoint, x.location entryPoint ≠ root.location entryPoint := by
  intro h
  obtain ⟨-, -, hlocation⟩ := h "/a/" (parse "/a/") List.mem_cons_self (by decide)
  exact hlocation "restconf" (by decide)

end Restconf.Address
