import Restconf.Proofs.Binary64
import Restconf.Proofs.Key.Kinds
import Restconf.Proofs.ListInstance.RoundTrip

set_option autoImplicit false

/-! # Values that are written and read again

The text of a value is read as the same value, with one exception: a decimal that is too large for a
number is infinity, which is written as a word and so read as a string. Booleans and strings are
their own texts, an integer is written in full, and the decimal that is written for a number is
rounded to it again. The main statement is `parse_toString_ofValue`, for single values and for keys
made of values. -/

namespace Restconf

namespace KeyValue

open Decimal

/-- The value is an infinity of either sign. -/
def isInfinite : KeyValue → Bool
  | float x => x.magnitude.val = Binary64.infinite
  | _ => false

/-- What the text of a value is read as: itself, but an infinity is written as a word. -/
def reread (v : KeyValue) : KeyValue :=
  if v.isInfinite then string (toString v) else v

/-! ## Values of each kind -/

theorem toString_float (x : Binary64) : (toString (KeyValue.float x)).toList = x.render :=
  String.toList_ofList

theorem ofText_toString_boolean (b : Bool) : ofText (toString (boolean b)) = .ok (boolean b) := by
  rw [ofText_eq_boolean_iff]
  cases b with
  | true => exact Or.inl ⟨rfl, Or.inl rfl⟩
  | false => exact Or.inr ⟨rfl, Or.inl rfl⟩

theorem ofText_toString_integer (n : Int) : ofText (toString (integer n)) = .ok (integer n) := by
  have htext : (toString (integer n)).toList = renderInt n := String.toList_ofList
  rw [ofText_eq_integer_iff, htext, ← integer?_eq_some_iff]
  exact integer?_renderInt n

theorem ofText_toString_finite {x : Binary64} (h : x.isFinite = true) :
    ofText (toString (float x)) = .ok (float x) := by
  obtain ⟨f, hf, hx⟩ := Binary64.render_denotes h
  rw [ofText_eq_float_iff, toString_float]
  exact ⟨f, hf, hx.symm⟩

/-- An infinity is written as a word. -/
theorem ofText_toString_infinite {x : Binary64} (h : x.magnitude.val = Binary64.infinite) :
    ofText (toString (float x)) = .ok (string (toString (float x))) := by
  have hnan : x.isNaN = false := decide_eq_false (by omega)
  have hfinite : x.isFinite = false := decide_eq_false (by omega)
  have htext : x.render = ['-', 'i', 'n', 'f'] ∨ x.render = ['i', 'n', 'f'] := by
    cases hsign : x.negative with
    | true => exact Or.inl (by simp [Binary64.render, hnan, hfinite, hsign])
    | false => exact Or.inr (by simp [Binary64.render, hnan, hfinite, hsign])
  rw [← toString_float] at htext
  have hletter : 'i' ∈ (toString (float x)).toList := by
    rcases htext with htext | htext <;> simp [htext]
  refine ofText_eq_string_iff.2 ⟨rfl, ?_, fun n hn => hn.not_mem (by decide) hletter,
    fun f hf => hf.not_mem (by decide) hletter⟩
  have hlower : Text.lower (toString (float x)) = "-inf" ∨
      Text.lower (toString (float x)) = "inf" := by
    simp only [Text.lower]
    rcases htext with htext | htext <;> rw [htext]
    · exact Or.inl (by decide)
    · exact Or.inr (by decide)
  rcases hlower with hlower | hlower <;> rw [hlower] <;> decide

/-! ## Values that were read -/

theorem isInfinite_eq_true_iff {token : String} {v : KeyValue} (h : ofText token = .ok v) :
    v.isInfinite = true ↔
      ∃ f, DenotesFraction token.toList f ∧ (2 ^ 54 - 1) * 2 ^ 970 * 10 ^ f.places ≤ f.digits := by
  have hfraction : ∀ f, DenotesFraction token.toList f →
      (v.isInfinite = true ↔ (2 ^ 54 - 1) * 2 ^ 970 * 10 ^ f.places ≤ f.digits) := by
    intro f hf
    obtain rfl : v = float (Binary64.ofFraction f) :=
      Except.ok.inj (h.symm.trans (ofText_eq_float_iff.2 ⟨f, hf, rfl⟩))
    have hpos : 0 < 10 ^ f.places := Nat.pow_pos (by decide)
    rw [← Nat.not_lt, ← Binary64.isFinite_ofRatio_iff f.negative hpos, isInfinite,
      decide_eq_true_iff]
    exact Binary64.magnitude_ofRatio_eq_infinite_iff
  constructor
  · intro hv
    cases v with
    | float x =>
        obtain ⟨f, hf, -⟩ := ofText_eq_float_iff.1 h
        exact ⟨f, hf, (hfraction f hf).1 hv⟩
    | string _ => exact absurd hv (by simp [isInfinite])
    | boolean _ => exact absurd hv (by simp [isInfinite])
    | integer _ => exact absurd hv (by simp [isInfinite])
  · rintro ⟨f, hf, hle⟩
    exact (hfraction f hf).2 hle

/-- The text of a value that was read is read again. -/
theorem ofText_toString {token : String} {v : KeyValue} (h : ofText token = .ok v) :
    ofText (toString v) = .ok v.reread := by
  cases v with
  | boolean b => exact ofText_toString_boolean b
  | integer n => exact ofText_toString_integer n
  | string text =>
      have htoken : toString (string text) = token := by
        rw [← (ofText_eq_string_iff.1 h).1]
        exact String.ofList_toList
      rw [htoken]
      exact h
  | float x =>
      obtain ⟨f, -, rfl⟩ := ofText_eq_float_iff.1 h
      by_cases hx : (Binary64.ofFraction f).isFinite = true
      · have hne : (float (Binary64.ofFraction f)).isInfinite = false :=
          decide_eq_false fun hinf => Binary64.magnitude_ofRatio_eq_infinite_iff.1 hinf hx
        rw [reread, hne]
        exact ofText_toString_finite hx
      · have hmagnitude := Binary64.magnitude_ofRatio_eq_infinite_iff.2 hx
        have hinf : (float (Binary64.ofFraction f)).isInfinite = true := decide_eq_true hmagnitude
        rw [reread, hinf]
        exact ofText_toString_infinite hmagnitude

theorem ofText_toString_of_mem {tokens : List String} {values : List KeyValue}
    (h : List.Forall₂ (fun token v => ofText token = .ok v) tokens values) :
    ∀ v ∈ values, ofText (toString v) = .ok v.reread := by
  induction h with
  | nil => simp
  | cons hv _ ih => exact List.forall_mem_cons.2 ⟨ofText_toString hv, ih⟩

theorem kind_reread (v : KeyValue) : v.reread.kind = v.kind ↔ v.isInfinite = false := by
  cases v with
  | float x =>
      rw [reread]
      split
      · next h => simp [kind, h]
      · next h => simpa using h
  | string _ => exact iff_of_true rfl rfl
  | boolean _ => exact iff_of_true rfl rfl
  | integer _ => exact iff_of_true rfl rfl

end KeyValue

namespace ListInstance

/-! ## Keys made of values -/

/-- Keys made of values are in canonical form. -/
theorem name_append_canonicalKeys_eq_toString {entry : ListInstance} {values : List KeyValue}
    (hname : entry.node.isQualified = false) (hkeys : entry.keys = values.map Key.ofValue) :
    entry.node.name.text ++ "=" ++ entry.canonicalKeys = toString entry := by
  rw [name_append_canonicalKeys, toString_eq_ofList hname, hkeys, List.map_map]
  rfl

/-- **The text of a value that was read is read as a value of the same kind, and even as the same
    value, just if the value is no infinity, and so are keys made of such values, in a list instance
    that is written and read again. Infinities come from the decimals from the midpoint above the
    largest number on, and are read as strings.** -/
theorem parse_toString_ofValue {tokens : List String} {values : List KeyValue}
    (h : List.Forall₂ (fun token v => KeyValue.ofText token = .ok v) tokens values) :
    List.Forall₂ (fun token v =>
      KeyValue.ofText (toString v) = .ok v.reread ∧
      (v.reread.kind = v.kind ↔ v.isInfinite = false) ∧
      (v.isInfinite = true ↔ ∃ f, Decimal.DenotesFraction token.toList f ∧
        (2 ^ 54 - 1) * 2 ^ 970 * 10 ^ f.places ≤ f.digits)) tokens values ∧
    ∀ entry : ListInstance, entry.node.isQualified = false → values ≠ [] →
      entry.keys = values.map Key.ofValue →
      ∃ e, parse entry.node.module? (toString entry) = .ok e ∧
        parse entry.node.module? (entry.node.name.text ++ "=" ++ entry.canonicalKeys) = .ok e ∧
        e.node = entry.node ∧
        List.Forall₂ (fun v k => k.text = toString v ∧ k.value = v.reread) values e.keys := by
  refine ⟨h.imp fun token v hv =>
    ⟨KeyValue.ofText_toString hv, v.kind_reread, KeyValue.isInfinite_eq_true_iff hv⟩, ?_⟩
  intro entry hname hvalues hkeys
  have hne : values.map Key.ofValue ≠ [] := by simpa using hvalues
  have hagain := KeyValue.ofText_toString_of_mem h
  obtain ⟨keys, hok⟩ : ∃ keys, Key.readAll (Key.renderAll (values.map Key.ofValue)) = .ok keys := by
    rw [Key.exists_readAll_renderAll_iff hne, List.forall_mem_map]
    exact fun v hv => KeyValue.exists_ofText_iff.1 ⟨_, hagain v hv⟩
  have hparse : parse entry.node.module? (toString entry) = .ok ⟨entry.node, keys⟩ := by
    rw [toString_eq_ofList hname, hkeys, parse_name_eq_ok_iff hname]
    exact ⟨rfl, hok⟩
  refine ⟨⟨entry.node, keys⟩, hparse, ?_, rfl, ?_⟩
  · rw [name_append_canonicalKeys_eq_toString hname hkeys]
    exact hparse
  · have hkept := Key.kept_of_readAll_renderAll hne hok
    rw [List.forall₂_map_left_iff] at hkept
    refine ((List.forall₂_and_left _ _).2 ⟨hagain, hkept⟩).imp ?_
    rintro v k ⟨hv, htext, hvalue, -⟩
    exact ⟨htext, Except.ok.inj (hvalue.symm.trans hv)⟩

/-- The decimal `1` with 309 zeros before its point, the shortest of the powers of ten that are too
    large for a number. -/
def overlong : String :=
  String.ofList ('1' :: List.replicate 309 '0' ++ ['.', '0'])

/-- The infinity that it is read as. -/
def infinity : KeyValue :=
  .float ⟨false, ⟨Binary64.infinite, by decide⟩⟩

theorem ofText_overlong : KeyValue.ofText overlong = .ok infinity := by
  have htext : overlong.toList = '1' :: List.replicate 309 '0' ++ ['.', '0'] := String.toList_ofList
  have hdigits : Decimal.fraction? ('1' :: List.replicate 309 '0' ++ ['.', '0']) =
      some ⟨false, 10 ^ 310, 1⟩ := by decide +kernel
  rw [infinity, KeyValue.ofText_eq_float_iff, htext]
  exact ⟨_, Decimal.fraction?_eq_some_iff.1 hdigits, by decide +kernel⟩

theorem parse_toString_ofValue_overlong :
    KeyValue.ofText (toString infinity) = .ok (.string "inf") ∧ ∃ entry e : ListInstance,
      entry.keys = [Key.ofValue (.integer (-7)), Key.ofValue infinity] ∧
      parse entry.node.module? (toString entry) = .ok e ∧
      e.keys.map Key.value = [.integer (-7), .string "inf"] := by
  have hread : List.Forall₂ (fun token v => KeyValue.ofText token = .ok v) ["-007", overlong]
      [.integer (-7), infinity] :=
    .cons (by decide) (.cons ofText_overlong .nil)
  obtain ⟨hagain, hentry⟩ := parse_toString_ofValue hread
  have hword : infinity.reread = .string "inf" := by decide
  obtain ⟨hinfinity, -⟩ := (List.forall₂_cons.1 (List.forall₂_cons.1 hagain).2).1
  refine ⟨hword ▸ hinfinity, ?_⟩
  let entry : ListInstance := ⟨⟨.carried ⟨"m", by decide⟩, ⟨"l", by decide⟩⟩,
    [.integer (-7), infinity].map Key.ofValue⟩
  obtain ⟨e, he, -, -, hkeys⟩ := hentry entry rfl (by simp) rfl
  refine ⟨entry, e, rfl, he, ?_⟩
  have hvalues : [.integer (-7), infinity].map KeyValue.reread = e.keys.map Key.value := by
    rw [← List.forall₂_eq_eq_eq, List.forall₂_map_left_iff, List.forall₂_map_right_iff]
    exact hkeys.imp fun _ _ hk => hk.2.symm
  rw [← hvalues, List.map_cons, List.map_singleton, hword]
  rfl

/-- Not every value keeps its kind. -/
theorem kind_ne_overlong :
    ¬ ∀ token v, KeyValue.ofText token = .ok v →
      ∃ v', KeyValue.ofText (toString v) = .ok v' ∧ v'.kind = v.kind := by
  intro h
  obtain ⟨v', hv', hkind⟩ := h overlong infinity ofText_overlong
  have hword : KeyValue.ofText (toString infinity) = .ok (.string "inf") := by decide
  obtain rfl := Except.ok.inj (hv'.symm.trans hword)
  exact absurd hkind (by decide)

end ListInstance

end Restconf
