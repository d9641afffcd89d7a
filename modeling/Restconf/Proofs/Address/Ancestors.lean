import Restconf.Proofs.Address.Equivalent
import Restconf.Proofs.Address.Rejected
import Restconf.Proofs.Address.RoundTrip

set_option autoImplicit false

/-! # Addresses above each other

An address is within another if it starts with segments that lead to the same places. Among
addresses that were read this is the order of ancestors (`isWithin_iff_climb`): it is reflexive and
transitive, and what an address is within is what the steps to the parent arrive at, up to how it is
written.

Segments are compared by the values of their keys. That a segment equals itself hence rests on no
text being read as "not a number"; transitivity holds of all segments. -/

namespace Restconf

theorem forall₂_trans {α : Type} {R : α → α → Prop} {xs ys zs : List α}
    (h : List.Forall₂ R xs ys) (h' : List.Forall₂ R ys zs)
    (hR : ∀ x y z, R x y → R y z → R x z) : List.Forall₂ R xs zs := by
  induction h generalizing zs with
  | nil => exact h'
  | cons hxy _ ih =>
      cases h' with
      | cons hyz h' => exact .cons (hR _ _ _ hxy hyz) (ih h')

namespace Segment

theorem leadsTo_self {s : Segment} (h : Key.Valued s.keys) : s.leadsTo s = true :=
  Agrees.leadsTo ⟨rfl, rfl, rfl, rfl⟩ h

theorem leadsTo_symm {s t : Segment} (h : s.leadsTo t = true) : t.leadsTo s = true := by
  obtain ⟨hmodule, hname, hkeys⟩ := leadsTo_iff.1 h
  exact leadsTo_iff.2 ⟨hmodule.symm, hname.symm,
    List.Forall₂.flip (hkeys.imp fun _ _ hk => KeyValue.same_symm hk)⟩

theorem leadsTo_trans {s t u : Segment} (hst : s.leadsTo t = true) (htu : t.leadsTo u = true) :
    s.leadsTo u = true := by
  obtain ⟨hmodule, hname, hkeys⟩ := leadsTo_iff.1 hst
  obtain ⟨hmodule', hname', hkeys'⟩ := leadsTo_iff.1 htu
  exact leadsTo_iff.2 ⟨hmodule.trans hmodule', hname.trans hname',
    forall₂_trans hkeys hkeys' fun _ _ _ => KeyValue.same_trans⟩

end Segment

namespace Address

/-! ## The first segments -/

/-- An address is within another just if its first segments lead where all segments of the other
    lead. -/
theorem isWithin_iff {a b : Address} : a.isWithin b = true ↔
    List.Forall₂ (fun s t => s.leadsTo t = true) (a.segments.take b.depth) b.segments := by
  have hzip (h : b.depth ≤ a.depth) :
      (a.segments.take b.depth).zip b.segments = a.segments.zip b.segments := by
    have hmin : min a.segments.length b.segments.length = b.depth := Nat.min_eq_right h
    rw [@List.zip_eq_zip_take_min _ _ a.segments, hmin, depth, List.take_length]
  rw [isWithin, Bool.and_eq_true, decide_eq_true_iff, List.forall₂_iff_zip, List.length_take]
  constructor
  · rintro ⟨hdepth, hall⟩
    refine ⟨Nat.min_eq_left hdepth, fun hst => ?_⟩
    rw [hzip hdepth] at hst
    exact List.all_eq_true.1 hall _ hst
  · rintro ⟨hlength, hall⟩
    have hdepth : b.depth ≤ a.depth := hlength.ge.trans (Nat.min_le_right _ _)
    refine ⟨hdepth, List.all_eq_true.2 fun st hst => ?_⟩
    rw [← hzip hdepth] at hst
    exact hall hst

theorem depth_le_of_isWithin {a b : Address} (h : a.isWithin b = true) : b.depth ≤ a.depth := by
  rw [isWithin, Bool.and_eq_true] at h
  exact of_decide_eq_true h.1

/-- An address whose keys have the values of their texts is within each row of its first
    segments. -/
theorem isWithin_of_take {a b : Address} (ha : ∀ s ∈ a.segments, Key.Valued s.keys) {k : Nat}
    (h : b.segments = a.segments.take k) : a.isWithin b = true := by
  have htake : a.segments.take b.depth = b.segments := by
    rw [depth, h, List.length_take, ← List.take_eq_take_min]
  rw [isWithin_iff, htake, List.forall₂_same]
  intro s hs
  rw [h] at hs
  exact Segment.leadsTo_self (ha s (List.mem_of_mem_take hs))

theorem isWithin_trans {a b c : Address} (hab : a.isWithin b = true) (hbc : b.isWithin c = true) :
    a.isWithin c = true := by
  have hdepth := depth_le_of_isWithin hbc
  rw [isWithin_iff] at hab hbc ⊢
  have htake := List.forall₂_take c.depth hab
  rw [List.take_take, Nat.min_eq_left hdepth] at htake
  exact forall₂_trans htake hbc fun _ _ _ => Segment.leadsTo_trans

/-- Addresses of one depth are within each other if one of them is within the other. -/
theorem isWithin_symm {a b : Address} (hdepth : a.depth = b.depth) (h : a.isWithin b = true) :
    b.isWithin a = true := by
  rw [isWithin_iff, ← hdepth, depth, List.take_length] at h
  rw [isWithin_iff, hdepth, depth, List.take_length]
  exact List.Forall₂.flip (h.imp fun _ _ hst => Segment.leadsTo_symm hst)

/-! ## Going up -/

theorem exists_climb_iff {a : Address} {n : Nat} : (∃ b, a.climb n = some b) ↔ n ≤ a.depth := by
  cases n with
  | zero => simp [climb]
  | succ n =>
      rw [climb_succ]
      by_cases hn : n < a.depth
      · simp [hn, Nat.succ_le_of_lt hn]
      · rw [if_neg hn]
        constructor
        · rintro ⟨b, hb⟩
          exact absurd hb (by simp)
        · intro hle
          exact absurd hle hn

theorem segments_of_climb {a b : Address} {n : Nat} (h : a.climb n = some b) :
    b.segments = a.segments.take (a.depth - n) := by
  cases n with
  | zero =>
      obtain rfl := Option.some.inj h
      rw [Nat.sub_zero, depth, List.take_length]
  | succ n =>
      rw [climb_succ] at h
      split at h
      · obtain rfl := Option.some.inj h
        rfl
      · exact absurd h (by simp)

theorem isValid_of_climb {a b : Address} (ha : a.isValid = true) {n : Nat}
    (h : a.climb n = some b) : b.isValid = true := by
  cases n with
  | zero =>
      obtain rfl := Option.some.inj h
      exact ha
  | succ n =>
      obtain ⟨k, rfl⟩ := exists_take_of_climb h
      rfl

theorem depth_of_climb {a b : Address} {n : Nat} (h : a.climb n = some b) :
    b.depth = a.depth - n := by
  rw [depth, segments_of_climb h, List.length_take]
  exact Nat.min_eq_left (Nat.sub_le _ _)

/-- What an address is within is found going up from it, but for how it is written. -/
theorem isWithin_iff_exists_climb {a b : Address} (ha : ∀ s ∈ a.segments, Key.Valued s.keys) :
    a.isWithin b = true ↔ b.depth ≤ a.depth ∧ ∃ c, a.climb (a.depth - b.depth) = some c ∧
      c.isWithin b = true ∧ b.isWithin c = true := by
  constructor
  · intro h
    have hdepth := depth_le_of_isWithin h
    obtain ⟨c, hc⟩ := exists_climb_iff.2 (Nat.sub_le a.depth b.depth)
    have hcdepth : c.depth = b.depth := by
      rw [depth_of_climb hc, Nat.sub_sub_self hdepth]
    have hwithin : c.isWithin b = true := by
      rw [isWithin_iff] at h ⊢
      rwa [segments_of_climb hc, Nat.sub_sub_self hdepth, List.take_take, Nat.min_self]
    exact ⟨hdepth, c, hc, hwithin, isWithin_symm hcdepth hwithin⟩
  · rintro ⟨-, c, hc, hwithin, -⟩
    exact isWithin_trans (isWithin_of_take ha (segments_of_climb hc)) hwithin

/-- **Among addresses that were read, being within another is reflexive and transitive, and an
    address is within another just if the steps up to the depth of the other arrive at an address of
    the same place. There are as many steps up as segments, each to an address that it is within;
    the last one is to the root, which every address is within.** -/
theorem isWithin_iff_climb {s : String} (hs : (parse s).isValid = true) :
    (parse s).isWithin (parse s) = true ∧
    (∀ b c : Address, (parse s).isWithin b = true → b.isWithin c = true →
      (parse s).isWithin c = true) ∧
    (∀ b : Address, (parse s).isWithin b = true ↔
      b.depth ≤ (parse s).depth ∧ ∃ c, (parse s).climb ((parse s).depth - b.depth) = some c ∧
        c.isWithin b = true ∧ b.isWithin c = true) ∧
    (∀ n, (∃ b, (parse s).climb n = some b) ↔ n ≤ (parse s).depth) ∧
    (∀ n b, (parse s).climb n = some b → (parse s).isWithin b = true) ∧
    (∀ b, (parse s).climb (parse s).depth = some b → b.isRoot = true ∧ b.parent? = none) ∧
    ∀ r : Address, r.isRoot = true → (parse s).isWithin r = true := by
  have hvalued := valued_of_isValid hs
  refine ⟨isWithin_of_take hvalued List.take_length.symm,
    fun b c hb hc => isWithin_trans hb hc, fun b => isWithin_iff_exists_climb hvalued,
    fun n => exists_climb_iff, fun n b hb => isWithin_of_take hvalued (segments_of_climb hb),
    fun b hb => ?_, fun r hr => ?_⟩
  · have hnil : b.segments = [] := by
      rw [segments_of_climb hb, Nat.sub_self, List.take_zero]
    exact ⟨by simp [isRoot, isValid_of_climb hs hb, hnil], by simp [parent?, hnil]⟩
  · exact forall_isWithin_iff.2 (segments_eq_nil_iff.2 (Or.inl hr)) (parse s)

/-- The one key is a float in two spellings, the other has quotes in one path only, and the module
    is written out twice in the other. -/
theorem isWithin_iff_climb_spelledFloat :
    ∃ c, (parse "/a:b/c=1.50,%27x%27/d:e").climb 1 = some c ∧
      c.isWithin (parse "/a:b/a:c=01.5,x") = true ∧ (parse "/a:b/a:c=01.5,x").isWithin c = true ∧
      (parse "/a:b/c=1.50,%27x%27/d:e").isWithin c = true ∧ ¬ c.isRoot = true ∧
      (parse "/a:b/c=1.50,%27x%27/d:e").climb 4 = none := by
  have hvalid : (parse "/a:b/c=1.50,%27x%27/d:e").isValid = true := by decide +kernel
  obtain ⟨-, -, hiff, hsteps, habove, -⟩ := isWithin_iff_climb hvalid
  have hdepth : (parse "/a:b/c=1.50,%27x%27/d:e").depth = 3 := by decide +kernel
  have hdepth' : (parse "/a:b/a:c=01.5,x").depth = 2 := by decide +kernel
  obtain ⟨-, c, hc, hwithin, hwithin'⟩ := (hiff (parse "/a:b/a:c=01.5,x")).1 (by decide +kernel)
  rw [hdepth, hdepth'] at hc
  refine ⟨c, hc, hwithin, hwithin', habove 1 c hc, ?_, ?_⟩
  · have hne : c.segments ≠ [] := by
      rw [ne_eq, List.eq_nil_iff_length_eq_zero, ← depth, depth_of_climb hc, hdepth]
      decide
    simp [isRoot, hne]
  · by_contra hsome
    have hle := (hsteps 4).1 (Option.ne_none_iff_exists'.1 hsome)
    rw [hdepth] at hle
    exact absurd hle (by decide)

end Address

end Restconf
