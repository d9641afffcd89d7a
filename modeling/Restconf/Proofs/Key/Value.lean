import Restconf.Key.Value

set_option autoImplicit false

/-! # Which texts have a value

Every text is a key value except a boolean in an unusual letter case (`exists_ofText_iff`). What a
text is read as is never "not a number", so it equals itself (`same_self_of_ofText`), and equality
of what is read is an equivalence. -/

namespace Restconf

/-! ## Equality of values -/

namespace Binary64

theorem same_iff {x y : Binary64} : x.same y = true ↔
    x.isNaN = false ∧ y.isNaN = false ∧ (x = y ∨ x.isZero = true ∧ y.isZero = true) := by
  simp [same, and_assoc]

theorem same_symm {x y : Binary64} (h : x.same y = true) : y.same x = true := by
  obtain ⟨hx, hy, heq | ⟨hx', hy'⟩⟩ := same_iff.1 h
  · exact same_iff.2 ⟨hy, hx, Or.inl heq.symm⟩
  · exact same_iff.2 ⟨hy, hx, Or.inr ⟨hy', hx'⟩⟩

theorem same_trans {x y z : Binary64} (hxy : x.same y = true) (hyz : y.same z = true) :
    x.same z = true := by
  obtain ⟨hx, -, heq | ⟨hx', -⟩⟩ := same_iff.1 hxy
  · rwa [heq]
  · obtain ⟨-, hz, heq' | ⟨-, hz'⟩⟩ := same_iff.1 hyz
    · rwa [← heq']
    · exact same_iff.2 ⟨hx, hz, Or.inr ⟨hx', hz'⟩⟩

end Binary64

namespace KeyValue

theorem same_symm {v w : KeyValue} (h : v.same w = true) : w.same v = true := by
  cases v with
  | float x =>
      cases w with
      | float y => exact Binary64.same_symm h
      | string _ | boolean _ | integer _ => exact absurd h (by simp [same])
  | string _ | boolean _ | integer _ =>
      cases w <;> simp_all [same]

theorem same_trans {u v w : KeyValue} (huv : u.same v = true) (hvw : v.same w = true) :
    u.same w = true := by
  cases v with
  | float y =>
      cases u with
      | float x =>
          cases w with
          | float z => exact Binary64.same_trans huv hvw
          | string _ | boolean _ | integer _ => exact absurd hvw (by simp [same])
      | string _ | boolean _ | integer _ => exact absurd huv (by simp [same])
  | string _ | boolean _ | integer _ =>
      cases u <;> cases w <;> simp_all [same]

/-! ## Booleans -/

/-- The text spells a boolean in a letter case other than the four that are accepted. -/
def OddBoolean (token : String) : Prop :=
  (Text.lower token = "true" ∨ Text.lower token = "false") ∧
    token ∉ ["true", "True", "false", "False"]

instance (token : String) : Decidable (OddBoolean token) :=
  inferInstanceAs (Decidable (_ ∧ _))

theorem boolean?_eq_none_iff {token : String} :
    boolean? token = none ↔ token ∉ ["true", "True", "false", "False"] := by
  unfold boolean?
  split
  · next h => rcases h with rfl | rfl <;> simp
  · split
    · next h => rcases h with rfl | rfl <;> simp
    · next h h' =>
        simp only [not_or] at h h'
        simp [h, h']

theorem spellsBoolean_iff {token : String} :
    spellsBoolean token = true ↔ Text.lower token = "true" ∨ Text.lower token = "false" := by
  simp [spellsBoolean]

/-- **A text has a value unless it is an odd boolean.** -/
theorem exists_ofText_iff {token : String} :
    (∃ v, ofText token = .ok v) ↔ ¬ OddBoolean token := by
  unfold ofText OddBoolean
  rw [← boolean?_eq_none_iff, ← spellsBoolean_iff]
  cases boolean? token with
  | some b => simp
  | none =>
      by_cases hs : spellsBoolean token = true
      · simp [hs]
      · cases Decimal.integer? token.toList <;> cases Decimal.fraction? token.toList <;> simp [hs]

theorem same_self_of_ofText {token : String} {v : KeyValue} (h : ofText token = .ok v) :
    v.same v = true := by
  cases v with
  | string _ => simp [same]
  | boolean _ => simp [same]
  | integer _ => simp [same]
  | float x =>
      have hx : x.isNaN = false := by
        unfold ofText at h
        repeat' split at h
        all_goals simp only [Except.ok.injEq, reduceCtorEq, float.injEq] at h
        rw [← h]
        exact Binary64.isNaN_ofRatio _ _ _
      exact Binary64.same_self hx

end KeyValue

end Restconf
