import Restconf.Proofs.Url
import Restconf.Request.Reader

set_option autoImplicit false

/-! # Where a path below the entry point leads

A path below the entry point opens a branch if its first segment is the branch's own, and what
follows that segment is the resource; the root has no segment and at most a slash.
`ofPath?_eq_some_iff` says that this is all that is read: no longer segment opens a branch, and the
address of the resource is read by the branch's rule. -/

namespace Restconf

namespace Branch

open Url (AtBoundary)

/-- The path `rest` below the entry point opens the branch and goes on with `resource`. -/
def Opens (b : Branch) (rest resource : List Char) : Prop :=
  match b.segment? with
  | none => rest = resource ∧ (resource = [] ∨ resource = ['/'])
  | some segment => rest = '/' :: (segment.toList ++ resource) ∧ AtBoundary resource

/-- The address that a resource has in a branch. -/
def addressOf : Branch → String → Address
  | root, _ => .root
  | operations, resource => .parseOperation resource
  | datastore, resource | schemaLibrary, resource => .parse resource

theorem segment_wellFormed {b : Branch} {segment : String} (h : b.segment? = some segment) :
    segment.toList ≠ [] ∧ '/' ∉ segment.toList := by
  cases b with
  | root => exact absurd h (by simp [segment?])
  | datastore | operations | schemaLibrary =>
      rw [← Option.some.inj h]
      decide

theorem opens_of_segment {b : Branch} {segment : String} (h : b.segment? = some segment)
    (rest resource : List Char) :
    b.Opens rest resource ↔ rest = '/' :: (segment.toList ++ resource) ∧ AtBoundary resource := by
  rw [Opens, h]

theorem opens_of_segment?_eq_none {b : Branch} (h : b.segment? = none)
    (rest resource : List Char) :
    b.Opens rest resource ↔ rest = resource ∧ (resource = [] ∨ resource = ['/']) := by
  rw [Opens, h]

/-- What opens a branch is nothing or opens with a slash. -/
theorem Opens.atBoundary {b : Branch} {rest resource : List Char} (h : b.Opens rest resource) :
    AtBoundary rest := by
  cases hb : b.segment? with
  | none =>
      obtain ⟨rfl, hresource⟩ := (opens_of_segment?_eq_none hb _ _).1 h
      exact hresource.imp id fun h => ⟨[], h⟩
  | some segment =>
      obtain ⟨rfl, -⟩ := (opens_of_segment hb _ _).1 h
      exact Or.inr ⟨_, rfl⟩

end Branch

namespace Destination

open Text

/-- After a slash the text up to the next one opens the branch. -/
theorem ofPath?_cons {rest : List Char} (h : rest ≠ []) :
    ofPath? ('/' :: rest) = (Branch.ofSegment? (String.ofList (before '/' rest))).map fun b =>
      ⟨b, String.ofList (rest.dropWhile (· ≠ '/')),
        b.addressOf (String.ofList (rest.dropWhile (· ≠ '/')))⟩ := by
  unfold ofPath?
  split
  · next heq => exact absurd heq (by simp)
  · next heq => exact absurd (List.cons.inj heq).2 h
  · next rest' _ heq =>
      obtain rfl := (List.cons.inj heq).2
      refine Option.map_congr fun b hb => ?_
      rw [Branch.ofSegment?_eq_some_iff] at hb
      cases b with
      | root => exact absurd hb (by simp [Branch.segment?])
      | datastore | operations | schemaLibrary => rfl
  · next hne => exact absurd rfl (hne rest)

theorem ofPath?_of_opens {b : Branch} {rest resource : List Char} (h : b.Opens rest resource) :
    ofPath? rest =
      some ⟨b, String.ofList resource, b.addressOf (String.ofList resource)⟩ := by
  cases hb : b.segment? with
  | none =>
      obtain rfl : b = .root := by
        cases b with
        | root => rfl
        | datastore | operations | schemaLibrary => exact absurd hb (by simp [Branch.segment?])
      obtain ⟨rfl, rfl | rfl⟩ := (Branch.opens_of_segment?_eq_none hb _ _).1 h
      · rfl
      · rfl
  | some segment =>
      obtain ⟨rfl, hresource⟩ := (Branch.opens_of_segment hb _ _).1 h
      obtain ⟨hne, hslash⟩ := Branch.segment_wellFormed hb
      obtain ⟨hbefore, hdrop⟩ :=
        (before_eq_and_dropWhile_eq_iff hslash).2 ⟨(rfl : segment.toList ++ _ = _), hresource⟩
      rw [ofPath?_cons (by simp [hne]), hbefore, hdrop, String.ofList_toList,
        Branch.ofSegment?_eq_some_iff.2 hb, Option.map_some]

theorem opens_of_ofPath? {rest : List Char} {d : Destination} (h : ofPath? rest = some d) :
    d.branch.Opens rest d.resource.toList ∧ d.address = d.branch.addressOf d.resource := by
  have hcases := h
  unfold ofPath? at hcases
  split at hcases
  · obtain rfl := Option.some.inj hcases
    exact ⟨⟨rfl, Or.inl rfl⟩, rfl⟩
  · obtain rfl := Option.some.inj hcases
    exact ⟨⟨rfl, Or.inr rfl⟩, rfl⟩
  · next rest hne =>
      have hrest : rest ≠ [] := fun hrest => hne (by rw [hrest])
      rw [ofPath?_cons hrest, Option.map_eq_some_iff] at h
      obtain ⟨b, hb, rfl⟩ := h
      rw [Branch.ofSegment?_eq_some_iff] at hb
      -- the segment reaches to the first slash, and the resource starts there
      obtain ⟨-, hresource⟩ :=
        (before_eq_and_dropWhile_eq_iff (not_mem_before '/' rest)).1 ⟨rfl, rfl⟩
      rw [Branch.opens_of_segment hb, String.toList_ofList, String.toList_ofList,
        before_append_dropWhile]
      exact ⟨⟨rfl, hresource⟩, rfl⟩
  · exact absurd hcases (by simp)

/-- **A path below the entry point leads to the branch that it opens, with what follows as the
    resource.** -/
theorem ofPath?_eq_some_iff {rest : List Char} {d : Destination} :
    ofPath? rest = some d ↔
      d.branch.Opens rest d.resource.toList ∧ d.address = d.branch.addressOf d.resource := by
  refine ⟨opens_of_ofPath?, fun ⟨hopens, haddress⟩ => ?_⟩
  rw [ofPath?_of_opens hopens, String.ofList_toList, ← haddress]

/-- A destination in the datastore has the address that its resource leads to. -/
theorem address_of_datastore {rest : List Char} {d : Destination} (h : ofPath? rest = some d)
    (hd : d.branch = .datastore) : d.address = .parse d.resource := by
  rw [(ofPath?_eq_some_iff.1 h).2, hd, Branch.addressOf]

theorem ofPath?_data {resource : List Char} (h : Url.AtBoundary resource) :
    ofPath? ('/' :: 'd' :: 'a' :: 't' :: 'a' :: resource) =
      some ⟨.datastore, String.ofList resource, .parse (String.ofList resource)⟩ :=
  ofPath?_of_opens (b := .datastore) ⟨rfl, h⟩

end Destination

end Restconf
