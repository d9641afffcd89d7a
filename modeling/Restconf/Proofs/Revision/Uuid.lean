import Mathlib.Algebra.Ring.Nat
import Restconf.Proofs.Text.Cut
import Restconf.Revision.Uuid
import Restconf.Text.Case

set_option autoImplicit false

/-! # Written UUIDs read back

A UUID is read from its hyphenated form (`parse?_render`): the groups of digits are found at the
hyphens, and together they are the digits of its number. The case of letters makes no difference to
the reader (`parse?_map_toLower`), so it also reads that form with any of its letters in upper case
(`parse?_of_spells`). `Reads` is what tags in headers need of a reader. -/

namespace Restconf.Uuid

open Text

/-! ## Digits -/

theorem length_hexDigits (n count : Nat) : (hexDigits n count).length = count := by
  induction count generalizing n with
  | zero => rfl
  | succ count ih => rw [hexDigits, List.length_append, ih, List.length_singleton]

theorem mem_hexDigits {n count : Nat} {c : Char} (h : c ∈ hexDigits n count) :
    ∃ d, d < 16 ∧ c = d.digitChar := by
  induction count generalizing n with
  | zero => exact absurd h List.not_mem_nil
  | succ count ih =>
      rw [hexDigits, List.mem_append, List.mem_singleton] at h
      rcases h with h | h
      · exact ih h
      · exact ⟨n % 16, Nat.mod_lt _ (by decide), h⟩

theorem hexValueFrom_append (n : Nat) (cs cs' : List Char) :
    hexValueFrom n (cs ++ cs') = (hexValueFrom n cs).bind fun m => hexValueFrom m cs' := by
  induction cs generalizing n with
  | nil => rfl
  | cons c cs ih =>
      rw [List.cons_append, hexValueFrom, hexValueFrom]
      cases Hex.value? c with
      | none => rfl
      | some d => exact ih _

/-- The last digits of a number have its remainder as their value. -/
theorem hexValueFrom_hexDigits (m n count : Nat) :
    hexValueFrom m (hexDigits n count) = some (m * 16 ^ count + n % 16 ^ count) := by
  induction count generalizing n with
  | zero => simp [hexDigits, hexValueFrom, Nat.mod_one]
  | succ count ih =>
      rw [hexDigits, hexValueFrom_append, ih, Option.bind_some, hexValueFrom,
        Hex.value?_digitChar _ (Nat.mod_lt _ (by decide)), Option.bind_some, hexValueFrom,
        Nat.pow_succ, Nat.mul_comm (16 ^ count) 16, Nat.mod_mul, Option.some.injEq]
      rw [Nat.mul_left_comm]
      omega

theorem ofDigits?_hexDigits (u : Uuid) : ofDigits? (hexDigits u.value.val 32) = some u := by
  have hlt : u.value.val < 16 ^ 32 := u.value.isLt
  rw [ofDigits?, if_pos (length_hexDigits _ _), hexValueFrom_hexDigits, Nat.mod_eq_of_lt hlt,
    Nat.zero_mul, Nat.zero_add, Option.map_some, ofNat]
  congr
  exact Nat.mod_eq_of_lt u.value.isLt

/-! ## Groups -/

theorem map_length_group {lengths : List Nat} {cs : List Char} (h : cs.length = lengths.sum) :
    (group lengths cs).map List.length = lengths := by
  induction lengths generalizing cs with
  | nil => rfl
  | cons length lengths ih =>
      rw [List.sum_cons] at h
      rw [group, List.map_cons, List.length_take, ih (by rw [List.length_drop]; omega)]
      congr
      omega

theorem flatten_group {lengths : List Nat} {cs : List Char} (h : cs.length = lengths.sum) :
    (group lengths cs).flatten = cs := by
  induction lengths generalizing cs with
  | nil => exact (List.length_eq_zero_iff.1 h).symm
  | cons length lengths ih =>
      rw [List.sum_cons] at h
      rw [group, List.flatten_cons, ih (by rw [List.length_drop]; omega), List.take_append_drop]

theorem mem_of_mem_group {lengths : List Nat} {cs part : List Char} (h : part ∈ group lengths cs)
    {c : Char} (hc : c ∈ part) : c ∈ cs := by
  induction lengths generalizing cs with
  | nil => exact absurd h List.not_mem_nil
  | cons length lengths ih =>
      rw [group, List.mem_cons] at h
      rcases h with rfl | h
      · exact List.mem_of_mem_take hc
      · exact List.mem_of_mem_drop (ih h)

/-! ## The hyphenated form -/

/-- The groups of digits of a UUID. -/
def groups (u : Uuid) : List (List Char) :=
  group groupLengths (hexDigits u.value.val 32)

theorem length_hexDigits_eq_sum (u : Uuid) :
    (hexDigits u.value.val 32).length = groupLengths.sum :=
  length_hexDigits _ _

/-- The characters of written UUIDs. -/
def alphabet : List Char :=
  "-0123456789abcdef".toList

/-- Only hyphens and hexadecimal digits stand in a written UUID. -/
theorem mem_alphabet_of_mem_render {u : Uuid} {c : Char} (h : c ∈ u.render) : c ∈ alphabet := by
  have hdigit : ∀ d, d < 16 → d.digitChar ∈ alphabet := by decide
  rcases mem_intercalate h with hhyphen | ⟨part, hpart, hc⟩
  · obtain rfl := List.mem_singleton.1 hhyphen
    decide
  · obtain ⟨d, hd, rfl⟩ := mem_hexDigits (mem_of_mem_group hpart hc)
    exact hdigit d hd

theorem not_mem_render {c : Char} (h : c ∉ alphabet) (u : Uuid) : c ∉ u.render :=
  fun hc => h (mem_alphabet_of_mem_render hc)

theorem length_render (u : Uuid) : u.render.length = 36 := by
  simp [render, group, groupLengths, length_hexDigits]

theorem render_ne_nil (u : Uuid) : u.render ≠ [] := by
  intro h
  have hlength := u.length_render
  rw [h] at hlength
  exact absurd hlength (by decide)

theorem splitOn_render (u : Uuid) : u.render.splitOn '-' = u.groups := by
  have hdigit : ∀ d, d < 16 → '-' ≠ d.digitChar := by decide
  refine splitOn_eq_iff.2 ⟨List.cons_ne_nil _ _, rfl, ?_⟩
  intro part hpart hhyphen
  obtain ⟨d, hd, he⟩ := mem_hexDigits (mem_of_mem_group hpart hhyphen)
  exact hdigit d hd he

theorem ofGroups?_render (u : Uuid) : ofGroups? u.render = some u := by
  have hlength := length_hexDigits_eq_sum u
  rw [ofGroups?, splitOn_render, groups, if_pos (map_length_group hlength), flatten_group hlength,
    ofDigits?_hexDigits]

/-- A written UUID has neither braces nor a name space around it. -/
theorem unwrap_render (u : Uuid) : unwrap u.render = u.render := by
  have hbrace : ¬ (u.render.head? = some '\x7b' ∧ u.render.getLast? = some '\x7d') := by
    rintro ⟨hhead, -⟩
    exact u.not_mem_render (by decide) (List.mem_of_head? hhead)
  have hspace : (u.render.take 9).map Char.toLower ≠ "urn:uuid:".toList := by
    intro h
    have hu : 'u' ∈ (u.render.take 9).map Char.toLower := by
      rw [h]
      decide
    obtain ⟨c, hc, hlower⟩ := List.mem_map.1 hu
    have hnot : 'u' ∉ alphabet.map Char.toLower := by decide
    have hmem := mem_alphabet_of_mem_render (List.mem_of_mem_take hc)
    exact hnot (List.mem_map.2 ⟨c, hmem, hlower⟩)
  rw [unwrap, if_neg hbrace, if_neg hspace]

/-- **A UUID is read from its hyphenated form.** -/
theorem parse?_render (u : Uuid) : parse? u.render = some u := by
  have hdigits : ofDigits? u.render = none := by
    rw [ofDigits?, length_render, if_neg (by decide)]
  rw [parse?, hdigits]
  simp only [unwrap_render, ofGroups?_render]

/-! ## Letter case -/

theorem value?_toLower (c : Char) : Hex.value? c.toLower = Hex.value? c := by
  by_cases hc : c.toNat < 128
  · have hascii : ∀ n, n < 128 →
        Hex.value? (Char.ofNat n).toLower = Hex.value? (Char.ofNat n) := by
      decide
    rw [← Char.ofNat_toNat c]
    exact hascii _ hc
  · rw [toLower_eq_self (Nat.le_of_not_lt hc)]

theorem hexValueFrom_map_toLower (n : Nat) (cs : List Char) :
    hexValueFrom n (cs.map Char.toLower) = hexValueFrom n cs := by
  induction cs generalizing n with
  | nil => rfl
  | cons c cs ih =>
      rw [List.map_cons, hexValueFrom, hexValueFrom, value?_toLower]
      simp only [ih]

theorem ofDigits?_map_toLower (cs : List Char) :
    ofDigits? (cs.map Char.toLower) = ofDigits? cs := by
  rw [ofDigits?, ofDigits?, List.length_map, hexValueFrom_map_toLower]

theorem ofGroups?_map_toLower (cs : List Char) :
    ofGroups? (cs.map Char.toLower) = ofGroups? cs := by
  have hsplit : (cs.map Char.toLower).splitOn '-' = (cs.splitOn '-').map (List.map Char.toLower) :=
    splitOn_map (fun c => toLower_eq_iff (by decide)) cs
  have hlength : List.length ∘ List.map Char.toLower = List.length :=
    funext fun part => List.length_map Char.toLower
  rw [ofGroups?, ofGroups?, hsplit, List.map_map, hlength, ← List.map_flatten,
    ofDigits?_map_toLower]

theorem unwrap_map_toLower (cs : List Char) :
    unwrap (cs.map Char.toLower) = (unwrap cs).map Char.toLower := by
  have hbrace : ∀ d, d.isAlpha = false → ∀ o : Option Char,
      o.map Char.toLower = some d ↔ o = some d := by
    intro d hd o
    cases o with
    | none => simp
    | some c => simp [toLower_eq_iff hd]
  have hlower : Char.toLower ∘ Char.toLower = Char.toLower := funext toLower_toLower
  simp only [unwrap, List.head?_map, List.getLast?_map, hbrace '\x7b' (by decide),
    hbrace '\x7d' (by decide), ← List.map_take, List.map_map, hlower]
  split
  · rw [List.map_dropLast, List.map_tail]
  · split
    · rw [List.map_drop]
    · rfl

/-- A UUID is read without regard to the case of its letters. -/
theorem parse?_map_toLower (cs : List Char) : parse? (cs.map Char.toLower) = parse? cs := by
  rw [parse?, parse?, ofDigits?_map_toLower, unwrap_map_toLower, ofGroups?_map_toLower]

/-- The text is the hyphenated form, each letter in one case or the other. -/
def Spells (u : Uuid) (text : List Char) : Prop :=
  text.map Char.toLower = u.render

theorem spells_render (u : Uuid) : u.Spells u.render := by
  have hlower : alphabet.all (fun c => c.toLower = c) = true := by decide
  have hmap : u.render.map Char.toLower = u.render.map id := by
    refine List.map_congr_left fun c hc => ?_
    exact of_decide_eq_true (List.all_eq_true.1 hlower c (mem_alphabet_of_mem_render hc))
  rw [Spells, hmap, List.map_id]

theorem parse?_of_spells {u : Uuid} {text : List Char} (h : u.Spells text) :
    parse? text = some u := by
  rw [← parse?_map_toLower, h, parse?_render]

/-- A function that reads every UUID from its hyphenated form, in any letter case, and nothing from
    the empty text. What it makes of other texts is left open. -/
structure Reads (parse : List Char → Option Uuid) : Prop where
  spelled {u : Uuid} {text : List Char} : u.Spells text → parse text = some u
  nil : parse [] = none

theorem reads_parse? : Reads parse? where
  spelled := parse?_of_spells
  nil := rfl

/-- The characters of hyphenated forms. -/
def spellingAlphabet : List Char :=
  alphabet ++ "ABCDEF".toList

theorem Spells.mem_spellingAlphabet {u : Uuid} {text : List Char} (h : u.Spells text) {c : Char}
    (hc : c ∈ text) : c ∈ spellingAlphabet := by
  have hlower : c.toLower ∈ alphabet := by
    refine mem_alphabet_of_mem_render (u := u) ?_
    rw [← h]
    exact List.mem_map_of_mem hc
  -- `toLower` moves only letters of ASCII, so the others are in the alphabet as they are
  by_cases hascii : c.toNat < 128
  · have hletters : ∀ n, n < 128 → (Char.ofNat n).toLower ∈ alphabet →
        Char.ofNat n ∈ spellingAlphabet := by
      decide +kernel
    rw [← Char.ofNat_toNat c] at hlower ⊢
    exact hletters _ hascii hlower
  · rw [toLower_eq_self (Nat.le_of_not_lt hascii)] at hlower
    exact List.mem_append_left _ hlower

theorem Spells.ne_nil {u : Uuid} {text : List Char} (h : u.Spells text) : text ≠ [] := by
  rintro rfl
  exact u.render_ne_nil h.symm

end Restconf.Uuid
