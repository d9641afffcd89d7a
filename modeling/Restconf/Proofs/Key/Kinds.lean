import Restconf.Proofs.Decimal
import Restconf.Proofs.Key.Value

set_option autoImplicit false

/-! # The kind that a text has

A text that spells a boolean, in whatever letter case, is a boolean or refused; any other is an
integer or a decimal if it has the form of one, and a string otherwise. As numerals have no letters
and only decimals have a point, each kind is known by the form of the text alone
(`ofText_eq_boolean_iff` up to `ofText_eq_string_iff`), and no order of the tests shows
(`ofText_classifies`). -/

namespace Restconf.KeyValue

open Decimal

/-! ## Booleans are no numerals -/

theorem boolean?_eq_some_iff {token : String} {b : Bool} :
    boolean? token = some b ↔
      (b = true ∧ (token = "true" ∨ token = "True")) ∨
      (b = false ∧ (token = "false" ∨ token = "False")) := by
  unfold boolean?
  split
  · next h => rcases h with rfl | rfl <;> cases b <;> simp
  · next h =>
      split
      · next h' => rcases h' with rfl | rfl <;> cases b <;> simp
      · next h' => simp [h, h']

/-- An accepted boolean is one in some letter case. -/
theorem spellsBoolean_of_boolean? {token : String} {b : Bool} (h : boolean? token = some b) :
    spellsBoolean token = true := by
  rw [spellsBoolean_iff]
  rcases boolean?_eq_some_iff.1 h with ⟨-, rfl | rfl⟩ | ⟨-, rfl | rfl⟩
  · exact Or.inl rfl
  · exact Or.inl rfl
  · exact Or.inr rfl
  · exact Or.inr rfl

theorem exists_isAlpha_of_spellsBoolean {token : String} (h : spellsBoolean token = true) :
    ∃ c ∈ token.toList, c.isAlpha = true := by
  obtain ⟨d, rest, hlower, hd⟩ : ∃ d rest,
      token.toList.map Char.toLower = d :: rest ∧ d.isAlpha = true := by
    have hmap : token.toList.map Char.toLower = (Text.lower token).toList :=
      String.toList_ofList.symm
    rw [hmap]
    rcases spellsBoolean_iff.1 h with h | h
    · exact ⟨'t', ['r', 'u', 'e'], by rw [h]; rfl, by decide⟩
    · exact ⟨'f', ['a', 'l', 's', 'e'], by rw [h]; rfl, by decide⟩
  obtain ⟨c, cs, hcs, rfl, -⟩ := List.map_eq_cons_iff.1 hlower
  exact ⟨c, hcs ▸ List.mem_cons_self, Text.isAlpha_of_isAlpha_toLower hd⟩

theorem not_spellsBoolean_of_integer {token : String} {n : Int}
    (h : DenotesInteger token.toList n) : ¬ spellsBoolean token = true := by
  intro hspells
  obtain ⟨c, hc, halpha⟩ := exists_isAlpha_of_spellsBoolean hspells
  exact h.not_mem halpha hc

theorem not_spellsBoolean_of_fraction {token : String} {f : Fraction}
    (h : DenotesFraction token.toList f) : ¬ spellsBoolean token = true := by
  intro hspells
  obtain ⟨c, hc, halpha⟩ := exists_isAlpha_of_spellsBoolean hspells
  exact h.not_mem halpha hc

/-! ## One kind after the other -/

/-- A boolean in some letter case is accepted or refused as one. -/
theorem ofText_of_spellsBoolean {token : String} (h : spellsBoolean token = true) :
    ofText token = match boolean? token with
      | some b => .ok (.boolean b)
      | none => .error (.badBoolean token) := by
  unfold ofText
  cases boolean? token with
  | some b => rfl
  | none => exact if_pos h

/-- Any other text is a number if it reads as one. -/
theorem ofText_of_not_spellsBoolean {token : String} (h : ¬ spellsBoolean token = true) :
    ofText token = match integer? token.toList with
      | some n => .ok (.integer n)
      | none =>
        match fraction? token.toList with
        | some f => .ok (.float (Binary64.ofFraction f))
        | none => .ok (.string token) := by
  have hboolean : boolean? token = none := by
    rw [Option.eq_none_iff_forall_ne_some]
    exact fun b hb => h (spellsBoolean_of_boolean? hb)
  unfold ofText
  rw [hboolean]
  exact if_neg h

theorem ofText_eq_boolean_iff {token : String} {b : Bool} :
    ofText token = .ok (.boolean b) ↔
      (b = true ∧ (token = "true" ∨ token = "True")) ∨
      (b = false ∧ (token = "false" ∨ token = "False")) := by
  rw [← boolean?_eq_some_iff]
  by_cases hspells : spellsBoolean token = true
  · rw [ofText_of_spellsBoolean hspells]
    cases boolean? token with
    | some b' => simp
    | none => simp
  · rw [ofText_of_not_spellsBoolean hspells]
    refine iff_of_false ?_ fun hb => hspells (spellsBoolean_of_boolean? hb)
    cases integer? token.toList with
    | some n => simp
    | none => cases fraction? token.toList <;> simp

theorem ofText_eq_error_iff {token : String} {e : ListInstance.Error} :
    ofText token = .error e ↔ e = .badBoolean token ∧ OddBoolean token := by
  rw [OddBoolean, ← spellsBoolean_iff, ← boolean?_eq_none_iff]
  by_cases hspells : spellsBoolean token = true
  · rw [ofText_of_spellsBoolean hspells]
    cases boolean? token with
    | some b => simp
    | none => simp [hspells, eq_comm]
  · rw [ofText_of_not_spellsBoolean hspells]
    cases integer? token.toList with
    | some n => simp [hspells]
    | none => cases fraction? token.toList <;> simp [hspells]

theorem ofText_eq_integer_iff {token : String} {n : Int} :
    ofText token = .ok (.integer n) ↔ DenotesInteger token.toList n := by
  by_cases hspells : spellsBoolean token = true
  · rw [ofText_of_spellsBoolean hspells]
    refine iff_of_false ?_ fun h => not_spellsBoolean_of_integer h hspells
    cases boolean? token <;> simp
  · rw [ofText_of_not_spellsBoolean hspells, ← integer?_eq_some_iff]
    cases integer? token.toList with
    | some m => simp
    | none => cases fraction? token.toList <;> simp

theorem ofText_eq_float_iff {token : String} {x : Binary64} :
    ofText token = .ok (.float x) ↔
      ∃ f, DenotesFraction token.toList f ∧ x = Binary64.ofFraction f := by
  by_cases hspells : spellsBoolean token = true
  · rw [ofText_of_spellsBoolean hspells]
    refine iff_of_false ?_ fun ⟨f, h, _⟩ => not_spellsBoolean_of_fraction h hspells
    cases boolean? token <;> simp
  · rw [ofText_of_not_spellsBoolean hspells]
    cases hinteger : integer? token.toList with
    | some n =>
        -- an integer is read first, but it has no point that would make it a decimal
        refine iff_of_false (by simp) fun ⟨f, h, _⟩ => ?_
        exact (integer?_eq_some_iff.1 hinteger).not_denotesFraction f h
    | none =>
        simp only [← fraction?_eq_some_iff]
        cases fraction? token.toList with
        | some f => simp [eq_comm]
        | none => simp

theorem ofText_eq_string_iff {token s : String} :
    ofText token = .ok (.string s) ↔
      s = token ∧ ¬ (Text.lower token = "true" ∨ Text.lower token = "false") ∧
        (∀ n, ¬ DenotesInteger token.toList n) ∧ ∀ f, ¬ DenotesFraction token.toList f := by
  rw [← spellsBoolean_iff]
  by_cases hspells : spellsBoolean token = true
  · rw [ofText_of_spellsBoolean hspells]
    refine iff_of_false ?_ fun h => h.2.1 hspells
    cases boolean? token <;> simp
  · rw [ofText_of_not_spellsBoolean hspells]
    simp only [← integer?_eq_some_iff, ← fraction?_eq_some_iff]
    cases integer? token.toList with
    | some n => simp
    | none =>
        cases fraction? token.toList with
        | some f => simp
        | none => simp [hspells, eq_comm]

/-- **A text is a boolean, a refused boolean, an integer, a decimal or a string, according to its
    form alone and with no two of these at once. An integer is read in full, of whatever length, and
    comes back from its own text.** -/
theorem ofText_classifies :
    (∀ token : String,
      (∀ b, ofText token = .ok (.boolean b) ↔
        (b = true ∧ (token = "true" ∨ token = "True")) ∨
        (b = false ∧ (token = "false" ∨ token = "False"))) ∧
      (∀ e, ofText token = .error e ↔ e = .badBoolean token ∧ OddBoolean token) ∧
      (∀ n, ofText token = .ok (.integer n) ↔ DenotesInteger token.toList n) ∧
      (∀ x, ofText token = .ok (.float x) ↔
        ∃ f, DenotesFraction token.toList f ∧ x = Binary64.ofFraction f) ∧
      (∀ s, ofText token = .ok (.string s) ↔
        s = token ∧ ¬ (Text.lower token = "true" ∨ Text.lower token = "false") ∧
          (∀ n, ¬ DenotesInteger token.toList n) ∧ ∀ f, ¬ DenotesFraction token.toList f)) ∧
    ∀ n : Int, toString (KeyValue.integer n) = toString n ∧
      ofText (toString n) = .ok (.integer n) := by
  refine ⟨fun token => ⟨fun _ => ofText_eq_boolean_iff, fun _ => ofText_eq_error_iff,
    fun _ => ofText_eq_integer_iff, fun _ => ofText_eq_float_iff,
    fun _ => ofText_eq_string_iff⟩, fun n => ⟨?_, ?_⟩⟩
  · exact String.toList_inj.1 (String.toList_ofList.trans (renderInt_eq n))
  · rw [ofText_eq_integer_iff, ← renderInt_eq, ← integer?_eq_some_iff]
    exact integer?_renderInt n

/-- A second sign, or a point at the end, makes a string. -/
example : ofText "-007" = .ok (.integer (-7)) ∧ ofText "+-7" = .ok (.string "+-7") ∧
    ofText "7." = .ok (.string "7.") ∧ ofText "TRUE" = .error (.badBoolean "TRUE") := by
  decide +kernel

end Restconf.KeyValue
