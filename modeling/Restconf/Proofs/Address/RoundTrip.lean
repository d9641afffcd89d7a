import Restconf.Proofs.Address.Tokens
import Restconf.Proofs.Segment
import Restconf.Stored

set_option autoImplicit false

/-! # Written addresses read back

An address that was read, and every address above it, is written so that it reads back
(`parse_toString_climb`). The text may differ from the one that was read first, but not from there
on: written again it is the same, and the addresses above are the very same values, input
included. -/

namespace Restconf

namespace Address

/-! ## Equality of what was read -/

theorem same_self_of_leads {ts : List PathToken} {ss : List Segment} (h : Leads none ts ss)
    (input : String) : (resolved input ss).same (resolved input ss) = true := by
  rw [same, Bool.and_eq_true, Bool.and_eq_true]
  refine ⟨⟨decide_eq_true rfl, decide_eq_true rfl⟩, all_zip_of_forall₂ ?_⟩
  exact List.forall₂_same.2 fun s hs => Segment.same_self (h.valued s hs)

/-! ## Going up -/

/-- The address that so many steps to the parent lead to. -/
def climb (a : Address) : Nat → Option Address
  | 0 => some a
  | n + 1 => (a.climb n).bind parent?

theorem segments_ofSegments (ss : List Segment) : (ofSegments ss).segments = ss := rfl

theorem parent?_eq (a : Address) :
    a.parent? =
      if 0 < a.depth then some (ofSegments (a.segments.take (a.depth - 1))) else none := by
  rw [parent?, List.dropLast_eq_take]
  cases h : a.segments with
  | nil => simp [depth, h]
  | cons s ss => simp [depth, h]

/-- Each step up takes away one segment, and there are as many as there are segments. -/
theorem climb_succ (a : Address) (n : Nat) :
    a.climb (n + 1) =
      if n < a.depth then some (ofSegments (a.segments.take (a.depth - (n + 1)))) else none := by
  induction n with
  | zero => exact a.parent?_eq
  | succ n ih =>
      rw [climb, ih]
      by_cases hn : n < a.depth
      · have hdepth : (ofSegments (a.segments.take (a.depth - (n + 1)))).depth =
            a.depth - (n + 1) := by
          rw [depth, segments_ofSegments, List.length_take]
          exact Nat.min_eq_left (Nat.sub_le _ _)
        rw [if_pos hn, Option.bind_some, parent?_eq, hdepth, segments_ofSegments, List.take_take,
          Nat.min_eq_left (Nat.sub_le _ _), Nat.sub_sub]
        simp only [Nat.sub_pos_iff_lt]
      · rw [if_neg hn, if_neg (by omega), Option.bind_none]

/-- Every address above is made of the first segments. -/
theorem exists_take_of_climb {a b : Address} {n : Nat} (h : a.climb (n + 1) = some b) :
    ∃ k, b = ofSegments (a.segments.take k) := by
  rw [climb_succ] at h
  split at h
  · exact ⟨_, (Option.some.inj h).symm⟩
  · exact absurd h (by simp)

/-! ## Reading what was written -/

/-- The text of segments that were read leads to them. -/
theorem parse_ofList_renderSegments {ts : List PathToken} {ss : List Segment}
    (h : Leads none ts ss) : parse (String.ofList (renderSegments ss)) = ofSegments ss := by
  rw [parse, String.toList_ofList, readPath_renderSegments h.map_token]
  rfl

/-- **An address that was read, or one above it, is read from its own text with the same segments
    and modules, and is written as the same text again. An address above is read as itself.** -/
theorem parse_toString_climb (input : String) (h : (parse input).isValid = true) (n : Nat)
    (b : Address) (hb : (parse input).climb n = some b) :
    (parse (toString b)).isValid = true ∧
    (parse (toString b)).segments = b.segments ∧
    (parse (toString b)).formsByModule = b.formsByModule ∧
    toString (parse (toString b)) = toString b ∧
    (0 < n → parse (toString b) = b ∧ (parse (toString b)).same b = true) ∧
    Document.toAddress (.text (toString b)) = .ok (parse (toString b)) := by
  obtain ⟨ss, hparse, hread⟩ := segments_of_isValid h
  obtain ⟨ts, hts⟩ := exists_leads_of_readPath hread
  rw [hparse] at hb
  -- the address has read segments, and is made of their text unless it is the one that was read
  obtain ⟨ts', hts', htext, hself⟩ : ∃ ts', Leads none ts' b.segments ∧
      toString b = String.ofList (renderSegments b.segments) ∧
      (0 < n → b = ofSegments b.segments) := by
    cases n with
    | zero =>
        obtain rfl : resolved input ss = b := Option.some.inj hb
        exact ⟨ts, hts, rfl, fun hn => absurd hn (by simp)⟩
    | succ n =>
        obtain ⟨k, rfl⟩ := exists_take_of_climb hb
        exact ⟨ts.take k, hts.take k, rfl, fun _ => rfl⟩
  have hagain : parse (toString b) = ofSegments b.segments := by
    rw [htext]
    exact parse_ofList_renderSegments hts'
  refine ⟨?_, ?_, ?_, ?_, ?_, ?_⟩
  · rw [hagain]
    rfl
  · rw [hagain, segments_ofSegments]
  · rw [hagain]
    rfl
  · rw [hagain, htext]
    rfl
  · intro hn
    rw [hagain, ← hself hn, hself hn]
    exact ⟨rfl, same_self_of_leads hts' _⟩
  · have hok : parse? (toString b) = .ok (parse (toString b)) :=
      parse?_of_isValid (by rw [hagain]; rfl)
    simp only [Document.toAddress, Document.toText, hok, Except.mapError]

theorem parse_toString_climb_quotedKeys :
    ∃ b, (parse "/a:b/c=1,%272%27,,/d:e/f=%27x%27").climb 2 = some b ∧ parse (toString b) = b := by
  have hvalid : (parse "/a:b/c=1,%272%27,,/d:e/f=%27x%27").isValid = true := by decide +kernel
  have hclimb : ((parse "/a:b/c=1,%272%27,,/d:e/f=%27x%27").climb 2).isSome = true := by
    decide +kernel
  obtain ⟨b, hb⟩ := Option.isSome_iff_exists.1 hclimb
  obtain ⟨-, -, -, -, habove, -⟩ := parse_toString_climb _ hvalid 2 b hb
  exact ⟨b, hb, (habove (by decide)).1⟩

end Address

end Restconf
