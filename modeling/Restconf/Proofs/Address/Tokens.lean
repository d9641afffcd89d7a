import Restconf.Proofs.Address.Grammar
import Restconf.Proofs.Key.RoundTrip

set_option autoImplicit false

/-! # The tokens that segments are written as

A segment is written as a token of its own (`Segment.token`), and a list of segments as the row of
their tokens. A written path is therefore read as what these tokens lead to
(`readPath_renderSegments_eq_ok_iff`), and the tokens of segments that were read lead back to them
(`Leads.map_token`, `Leads.take`). -/

namespace Restconf

/-! ## Written segments -/

/-- The module that a scope writes out. -/
def ModuleScope.written? : ModuleScope → Option Identifier
  | .written m => some m
  | _ => none

/-- The text of a segment's keys. -/
def Segment.raw? : Segment → Option (List Char)
  | .node _ => none
  | .list entry => some (Key.renderAll entry.keys)

/-- The token that a segment is written as. -/
def Segment.token (s : Segment) : PathToken :=
  ⟨s.nodeName.scope.written?, s.name, s.raw?⟩

theorem Segment.render_token (s : Segment) : s.token.render = s.render := by
  have hlocal : PathToken.localText s.name s.raw? = s.name.chars ++ s.renderKeys := by
    cases s with
    | node _ => simp [PathToken.localText, raw?, renderKeys]
    | list _ => rfl
  rw [token, render, NodeName.render, name] at *
  cases s.nodeName.scope with
  | unknown => exact hlocal
  | carried _ => exact hlocal
  | written m =>
      simp only [ModuleScope.written?, PathToken.render_some, hlocal, List.append_assoc,
        List.cons_append]

/-- No character that ends a segment, a path or a query stands in a written segment. -/
theorem Segment.not_mem_render {c : Char} (h : c ∈ ['/', '?', '#']) (s : Segment) :
    c ∉ s.render := by
  obtain ⟨hpart, hcolon, heq⟩ : Identifier.isPart c = false ∧ c ≠ ':' ∧ c ≠ '=' := by
    simp only [List.mem_cons, List.not_mem_nil, or_false] at h
    rcases h with rfl | rfl | rfl <;> decide
  have hid : ∀ id : Identifier, c ∉ id.chars := fun _ => Identifier.not_mem_chars hpart
  have hnode : c ∉ s.nodeName.render := by
    unfold NodeName.render
    split <;> simp [hid, hcolon]
  have hkeys : c ∉ s.renderKeys := by
    cases s with
    | node _ => exact List.not_mem_nil
    | list entry => simp [renderKeys, heq, Key.not_mem_renderAll h]
  simp [render, hnode, hkeys]

namespace Address

/-! ## Written paths -/

theorem renderSegments_eq_renderTokens {ss : List Segment} (h : ss ≠ []) :
    renderSegments ss = renderTokens (ss.map Segment.token) := by
  cases ss with
  | nil => exact absurd rfl h
  | cons s ss => simp [renderSegments, renderTokens, List.flatMap_map, Segment.render_token]

theorem not_mem_token {ss : List Segment} {t : PathToken} (h : t ∈ ss.map Segment.token) :
    '/' ∉ t.render := by
  obtain ⟨s, -, rfl⟩ := List.mem_map.1 h
  rw [s.render_token]
  exact s.not_mem_render (by decide)

/-- **A written path is read as what the tokens of its segments lead to.** -/
theorem readPath_renderSegments_eq_ok_iff {ss ss' : List Segment} :
    readPath (renderSegments ss) = .ok ss' ↔ Leads none (ss.map Segment.token) ss' := by
  by_cases hne : ss = []
  · subst hne
    constructor
    · intro h
      rw [← Except.ok.inj h]
      exact .nil
    · intro h
      cases h
      rfl
  · have hne' : ss.map Segment.token ≠ [] := by simpa using hne
    rw [renderSegments_eq_renderTokens hne]
    exact readPath_renderTokens_eq_ok_iff hne' fun t ht => not_mem_token ht

theorem readPath_renderSegments {ss ss' : List Segment}
    (h : Leads none (ss.map Segment.token) ss') : readPath (renderSegments ss) = .ok ss' :=
  readPath_renderSegments_eq_ok_iff.2 h

/-! ## Segments that were read -/

/-- A segment that a token leads to is what its own token leads to. -/
theorem Resolves.token {parent : Option Identifier} {t : PathToken} {s : Segment}
    (h : Resolves parent t s) : Resolves parent s.token s := by
  obtain ⟨module?, name, raw?⟩ := t
  -- a scope that writes its module is kept, and any other is that of the parent again
  have hscope : ∀ raw?', PathToken.scope parent
      ⟨(PathToken.scope parent ⟨module?, name, raw?⟩).written?, name, raw?'⟩ =
        PathToken.scope parent ⟨module?, name, raw?⟩ := by
    intro raw?'
    cases module? <;> cases parent <;> rfl
  cases h with
  | node =>
      rw [Resolves, Segment.token]
      simp only [Segment.nodeName, Segment.name, Segment.raw?, hscope]
      exact .node
  | list hk =>
      rw [Resolves, Segment.token]
      simp only [Segment.nodeName, Segment.name, Segment.raw?, hscope]
      exact .list (Key.readAll_renderAll_of_readAll hk)

theorem Leads.map_token {parent : Option Identifier} {ts : List PathToken} {ss : List Segment}
    (h : Leads parent ts ss) : Leads parent (ss.map Segment.token) ss := by
  induction h with
  | nil => exact .nil
  | cons ht _ ih => exact .cons ht.token ih

theorem Leads.take {parent : Option Identifier} {ts : List PathToken} {ss : List Segment}
    (h : Leads parent ts ss) (n : Nat) : Leads parent (ts.take n) (ss.take n) := by
  induction h generalizing n with
  | nil =>
      rw [List.take_nil, List.take_nil]
      exact .nil
  | cons ht _ ih =>
      cases n with
      | zero => exact .nil
      | succ n => exact .cons ht (ih n)

theorem exists_leads_of_readPath {cs : List Char} {ss : List Segment}
    (h : readPath cs = .ok ss) : ∃ ts, Leads none ts ss := by
  rcases readPath_eq_ok_iff.1 h with ⟨-, rfl⟩ | ⟨ts, -, -, -, hts⟩
  · exact ⟨[], .nil⟩
  · exact ⟨ts, hts⟩

theorem Resolves.valued {parent : Option Identifier} {t : PathToken} {s : Segment}
    (h : Resolves parent t s) : Key.Valued s.keys := by
  obtain ⟨module?, name, raw?⟩ := t
  cases h with
  | node =>
      intro k hk
      exact absurd hk List.not_mem_nil
  | list hk => exact Key.valued_of_readAll hk

theorem Leads.valued {parent : Option Identifier} {ts : List PathToken} {ss : List Segment}
    (h : Leads parent ts ss) : ∀ s ∈ ss, Key.Valued s.keys := by
  induction h with
  | nil => simp
  | cons ht _ ih => exact List.forall_mem_cons.2 ⟨ht.valued, ih⟩

/-! ## Addresses that were read -/

theorem segments_of_isValid {input : String} (h : (parse input).isValid = true) :
    ∃ ss, parse input = resolved input ss ∧ readPath input.toList = .ok ss := by
  unfold parse at h ⊢
  cases hread : readPath input.toList with
  | ok ss => exact ⟨ss, rfl, rfl⟩
  | error fault =>
      rw [hread] at h
      exact absurd h (by simp [ofOutcome, isValid])

theorem valued_of_isValid {input : String} (h : (parse input).isValid = true) :
    ∀ s ∈ (parse input).segments, Key.Valued s.keys := by
  obtain ⟨ss, hparse, hread⟩ := segments_of_isValid h
  obtain ⟨ts, hts⟩ := exists_leads_of_readPath hread
  rw [hparse]
  exact hts.valued

theorem parse?_of_isValid {input : String} (h : (parse input).isValid = true) :
    parse? input = .ok (parse input) := by
  obtain ⟨ss, hparse, hread⟩ := segments_of_isValid h
  rw [hparse, parse?, hread]

end Address

end Restconf
