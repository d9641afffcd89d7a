import Restconf.Proofs.Address.Canonical
import Restconf.Proofs.Text.Printable

set_option autoImplicit false

/-! # Written paths can stand in a header

Names are printable by their grammar and keys by their encoding, so every segment and every path is
(`isPathText_renderSegments`), whatever texts its keys have and however they are quoted. No slash
stands in a segment, so the slashes of a path are those in front of its segments
(`splitOn_renderSegments`). -/

namespace Restconf

open Text

/-! ## Segments -/

theorem Identifier.isPathText_chars (id : Identifier) : IsPathText id.chars := by
  have hpart : ∀ c, isPart c = true → IsPrintable ['?', '#', '%'] [c] := by
    intro c hc
    simp only [isPart, Bool.or_eq_true, decide_eq_true_eq] at hc
    exact isPrintable_of_namePart (by grind)
  have hall : ∀ cs : List Char, (∀ c ∈ cs, isPart c = true) → IsPathText cs := by
    intro cs hcs
    induction cs with
    | nil => exact isPathText_nil
    | cons c cs ih =>
        obtain ⟨hc, hcs⟩ := List.forall_mem_cons.1 hcs
        exact (ih hcs).cons (hpart c hc)
  exact hall id.chars fun c hc => isPart_of_mem_chars hc

/-- A key can stand in a path, whatever its text and its quotes are. -/
theorem Key.isPathText_render (forced : Bool) (k : Key) : IsPathText (k.render forced) := by
  have hwrite : ∀ q : QuoteMark, IsPathText (q.write k.text.toList) := by
    intro q
    rw [Key.write_eq_encode]
    exact isPathText_encode (by decide) (by decide) (by decide) (by decide) _
  unfold render
  split
  · exact hwrite _
  · split
    · exact hwrite _
    · exact isPathText_encode (by decide) (by decide) (by decide) (by decide) _

theorem Key.isPathText_renderAll (keys : List Key) : IsPathText (renderAll keys) := by
  refine isPathText_intercalate (isPathText_nil.cons (by decide)) fun row hrow => ?_
  obtain ⟨k, -, rfl⟩ := List.mem_map.1 hrow
  exact k.isPathText_render _

theorem NodeName.isPathText_render (n : NodeName) : IsPathText n.render := by
  unfold render
  split
  · exact (Identifier.isPathText_chars _).append (n.name.isPathText_chars.cons (by decide))
  · exact n.name.isPathText_chars

theorem Segment.isPathText_render (s : Segment) : IsPathText s.render := by
  refine s.nodeName.isPathText_render.append ?_
  cases s with
  | node _ => exact isPathText_nil
  | list entry => exact (Key.isPathText_renderAll entry.keys).cons (by decide)

namespace Address

/-! ## Paths -/

theorem isPathText_renderSegments (ss : List Segment) : IsPathText (renderSegments ss) := by
  cases ss with
  | nil => exact isPathText_nil.cons (by decide)
  | cons s ss =>
      exact isPathText_flatMap fun s _ => s.isPathText_render.cons (by decide)

theorem renderSegments_of_ne_nil {ss : List Segment} (h : ss ≠ []) :
    renderSegments ss = (ss.map Segment.render).flatMap ('/' :: ·) := by
  cases ss with
  | nil => exact absurd rfl h
  | cons s ss => simp [renderSegments, List.flatMap_map]

/-- **A path is cut at its slashes into its segments, with nothing in front of the first slash.** -/
theorem splitOn_renderSegments {ss : List Segment} (h : ss ≠ []) :
    (renderSegments ss).splitOn '/' = [] :: ss.map Segment.render := by
  have hne : ss.map Segment.render ≠ [] := by simpa using h
  refine splitOn_eq_iff.2 ⟨List.cons_ne_nil _ _, ?_, ?_⟩
  · rw [renderSegments_of_ne_nil h, flatMap_cons_eq '/' hne]
    obtain ⟨row, rows, hrows⟩ := List.exists_cons_of_ne_nil hne
    rw [hrows, List.intercalate_cons_cons]
    rfl
  · refine List.forall_mem_cons.2 ⟨List.not_mem_nil, fun row hrow => ?_⟩
    obtain ⟨s, -, rfl⟩ := List.mem_map.1 hrow
    exact s.not_mem_render (by decide)

/-- There are as many slashes as segments. -/
theorem count_renderSegments {ss : List Segment} (h : ss ≠ []) :
    (renderSegments ss).count '/' = ss.length := by
  have hcount : ∀ s : Segment, ('/' :: s.render).count '/' = 1 := by
    intro s
    rw [List.count_cons_self, List.count_eq_zero_of_not_mem (s.not_mem_render (by decide))]
  have hall : ∀ ss : List Segment, (ss.flatMap fun s => '/' :: s.render).count '/' = ss.length := by
    intro ss
    induction ss with
    | nil => rfl
    | cons s ss ih => rw [List.flatMap_cons, List.count_append, hcount, ih, List.length_cons,
        Nat.add_comm]
  cases ss with
  | nil => exact absurd rfl h
  | cons s ss => exact hall (s :: ss)

@[simp] theorem length_canonicalSegments (parent : Option Identifier) (ss : List Segment) :
    (canonicalSegments parent ss).length = ss.length := by
  induction ss generalizing parent with
  | nil => rfl
  | cons s ss ih => rw [canonicalSegments, List.length_cons, List.length_cons, ih]

theorem canonicalSegments_ne_nil {ss : List Segment} (h : ss ≠ []) (parent : Option Identifier) :
    canonicalSegments parent ss ≠ [] := by
  intro hnil
  have hlength := congrArg List.length hnil
  rw [length_canonicalSegments] at hlength
  exact h (List.length_eq_zero_iff.1 hlength)

/-! ## Locations -/

/-- A location holds nothing that its entry point and a path do not hold. -/
theorem isPrintable_locationChars {entryPoint : String}
    (h : IsPrintable ['?', '#'] (trimSlashes entryPoint).toList) (a : Address) :
    IsPrintable ['?', '#'] (a.locationChars entryPoint) := by
  have hresource : IsPrintable ['?', '#'] a.resourceChars := by
    unfold resourceChars
    split
    · exact isPathText_nil.printable
    · exact (isPathText_renderSegments _).printable
  have hdata : IsPrintable ['?', '#'] ['/', 'd', 'a', 't', 'a'] := by decide
  rw [locationChars_eq]
  refine isPrintable_append.2 ⟨?_, isPrintable_append.2 ⟨hdata, hresource⟩⟩
  split
  · exact isPathText_nil.printable
  · exact isPrintable_cons.2 ⟨by decide, h⟩

end Address

end Restconf
