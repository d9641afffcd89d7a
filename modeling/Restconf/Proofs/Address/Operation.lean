import Restconf.Address.Reader

set_option autoImplicit false

/-! # Addresses of operations

The path of an operation has at most one segment, and that is no list entry. Where it is read at
all, its address is the one that any path has (`parseOperation_eq_parse`). -/

namespace Restconf.Address

/-- The segments name at most one operation. -/
def NamesOperation (segments : List Segment) : Prop :=
  segments.length ≤ 1 ∧ ∀ s ∈ segments, s.isList = false

theorem readOperation_eq_ok_iff {cs : List Char} {segments : List Segment} :
    readOperation cs = .ok segments ↔ readPath cs = .ok segments ∧ NamesOperation segments := by
  unfold readOperation
  cases hread : readPath cs with
  | error fault => simp
  | ok read =>
      simp only [Except.ok.injEq]
      by_cases hdeep : 1 < read.length
      · rw [if_pos hdeep]
        simp only [reduceCtorEq, false_iff, not_and]
        rintro rfl ⟨hlength, -⟩
        omega
      · rw [if_neg hdeep]
        cases hlist : read.find? Segment.isList with
        | some s =>
            simp only [reduceCtorEq, false_iff, not_and]
            rintro rfl ⟨-, hplain⟩
            have hs := hplain s (List.mem_of_find?_eq_some hlist)
            rw [List.find?_some hlist] at hs
            exact absurd hs (by simp)
        | none =>
            have hplain : ∀ s ∈ read, s.isList = false := by
              simpa using List.find?_eq_none.1 hlist
            simp only [Except.ok.injEq]
            constructor
            · rintro rfl
              exact ⟨rfl, by omega, hplain⟩
            · exact fun h => h.1

theorem ofOutcome_isValid_iff {input : String} {outcome : Except Fault (List Segment)} :
    (ofOutcome input outcome).isValid = true ↔ ∃ segments, outcome = .ok segments := by
  cases outcome with
  | error fault => simp [ofOutcome, isValid]
  | ok segments => simp [ofOutcome, isValid]

/-- **The address of an operation is valid if and only if the path is, and names at most one
    operation.** -/
theorem isValid_parseOperation_iff (resource : String) :
    (parseOperation resource).isValid = true ↔
      (parse resource).isValid = true ∧ NamesOperation (parse resource).segments := by
  rw [parseOperation, parse, ofOutcome_isValid_iff, ofOutcome_isValid_iff]
  constructor
  · rintro ⟨segments, h⟩
    obtain ⟨hread, hnames⟩ := readOperation_eq_ok_iff.1 h
    rw [hread]
    exact ⟨⟨segments, rfl⟩, hnames⟩
  · rintro ⟨⟨segments, hread⟩, hnames⟩
    rw [hread] at hnames
    exact ⟨segments, readOperation_eq_ok_iff.2 ⟨hread, hnames⟩⟩

/-- **A valid address of an operation is the address of the path.** -/
theorem parseOperation_eq_parse {resource : String}
    (h : (parseOperation resource).isValid = true) : parseOperation resource = parse resource := by
  rw [parseOperation, ofOutcome_isValid_iff] at h
  obtain ⟨segments, hread⟩ := h
  rw [parseOperation, parse, hread, (readOperation_eq_ok_iff.1 hread).1]

end Restconf.Address
