import Restconf.Text.Utf8

set_option autoImplicit false

/-! # What is read as UTF-8

`Utf8.decodeBy` tries one to four bytes at a time. Here it is tied to the encoding of single
characters: each of the four readers accepts exactly the bytes that core's `utf8EncodeChar` writes
(`encodeChar_of_one?` to `encodeChar_of_four?`), so a text is read as a character and a rest just
if it starts with the bytes of that character (`decodeBy_eq_some_cons_iff`).

UTF-8 is self-synchronising: only the first byte of a character can open one
(`isFirst_encodeChar`, `not_isFirst_of_mem_tail`), and no character's bytes start those of another
(`encodeChar_append_inj`). -/

namespace Restconf.Text.Utf8

/-! ## The bytes of a character -/

theorem encodeChar_one {c : Char} (h : c.toNat ≤ 0x7F) :
    String.utf8EncodeChar c = [UInt8.ofNat c.toNat] := by
  have hn : c.val.toNat = c.toNat := rfl
  simp only [String.utf8EncodeChar, hn]
  rw [if_pos h]

theorem encodeChar_two {c : Char} (h : 0x7F < c.toNat) (h' : c.toNat ≤ 0x7FF) :
    String.utf8EncodeChar c =
      [UInt8.ofNat (c.toNat / 64 % 32 + 192), UInt8.ofNat (c.toNat % 64 + 128)] := by
  have hn : c.val.toNat = c.toNat := rfl
  simp only [String.utf8EncodeChar, hn]
  rw [if_neg (by omega), if_pos h']

theorem encodeChar_three {c : Char} (h : 0x7FF < c.toNat) (h' : c.toNat ≤ 0xFFFF) :
    String.utf8EncodeChar c =
      [UInt8.ofNat (c.toNat / 4096 % 16 + 224), UInt8.ofNat (c.toNat / 64 % 64 + 128),
        UInt8.ofNat (c.toNat % 64 + 128)] := by
  have hn : c.val.toNat = c.toNat := rfl
  simp only [String.utf8EncodeChar, hn]
  rw [if_neg (by omega), if_neg (by omega), if_pos h']

theorem encodeChar_four {c : Char} (h : 0xFFFF < c.toNat) :
    String.utf8EncodeChar c =
      [UInt8.ofNat (c.toNat / 262144 % 8 + 240), UInt8.ofNat (c.toNat / 4096 % 64 + 128),
        UInt8.ofNat (c.toNat / 64 % 64 + 128), UInt8.ofNat (c.toNat % 64 + 128)] := by
  have hn : c.val.toNat = c.toNat := rfl
  simp only [String.utf8EncodeChar, hn]
  rw [if_neg (by omega), if_neg (by omega), if_neg (by omega)]

/-! ## Each reader accepts only what is written -/

theorem toNat_of_scalar? {n : Nat} {c : Char} (h : scalar? n = some c) : c.toNat = n := by
  unfold scalar? at h
  split at h
  · next hn =>
      simp only [Option.some.injEq] at h
      rw [← h, Char.ofNat, dif_pos hn]
      rfl
  · exact absurd h (by simp)

theorem toNat_of_tail? {b : UInt8} {y : Nat} (h : tail? b = some y) :
    b.toNat = y + 128 ∧ y < 64 := by
  have h₁ : (0x80 : UInt8).toNat = 128 := rfl
  have h₂ : (0xBF : UInt8).toNat = 191 := rfl
  unfold tail? at h
  split at h
  · next hb =>
      rw [UInt8.le_iff_toNat_le, UInt8.le_iff_toNat_le, h₁, h₂] at hb
      simp only [Option.some.injEq] at h
      omega
  · exact absurd h (by simp)

/-- A byte is known by its value. -/
theorem ofNat_eq {b : UInt8} {n : Nat} (h : b.toNat = n) : UInt8.ofNat n = b := by
  rw [← h, UInt8.ofNat_toNat]

theorem encodeChar_of_one? {a : UInt8} {c : Char} (h : one? a = some c) :
    String.utf8EncodeChar c = [a] := by
  have h₁ : (0x7F : UInt8).toNat = 127 := rfl
  unfold one? at h
  split at h
  · next ha =>
      rw [UInt8.le_iff_toNat_le, h₁] at ha
      simp only [Option.some.injEq] at h
      have hc : c.toNat = a.toNat := by
        rw [← h, Char.ofNat, dif_pos (Or.inl (by omega))]
        rfl
      rw [encodeChar_one (by omega), ofNat_eq hc.symm]
  · exact absurd h (by simp)

theorem encodeChar_of_two? {a b : UInt8} {c : Char} (h : two? a b = some c) :
    String.utf8EncodeChar c = [a, b] := by
  have h₁ : (0xC2 : UInt8).toNat = 194 := rfl
  have h₂ : (0xDF : UInt8).toNat = 223 := rfl
  unfold two? at h
  split at h
  · next ha =>
      rw [UInt8.le_iff_toNat_le, UInt8.le_iff_toNat_le, h₁, h₂] at ha
      obtain ⟨y, hy, hs⟩ := Option.bind_eq_some_iff.1 h
      obtain ⟨hb, hy'⟩ := toNat_of_tail? hy
      have hc := toNat_of_scalar? hs
      rw [encodeChar_two (by omega) (by omega), ofNat_eq (b := a) (by omega),
        ofNat_eq (b := b) (by omega)]
  · exact absurd h (by simp)

theorem encodeChar_of_three? {a b d : UInt8} {c : Char} (h : three? a b d = some c) :
    String.utf8EncodeChar c = [a, b, d] := by
  have h₁ : (0xE0 : UInt8).toNat = 224 := rfl
  have h₂ : (0xEF : UInt8).toNat = 239 := rfl
  unfold three? at h
  split at h
  · next ha =>
      rw [UInt8.le_iff_toNat_le, UInt8.le_iff_toNat_le, h₁, h₂] at ha
      obtain ⟨y, hy, h⟩ := Option.bind_eq_some_iff.1 h
      obtain ⟨z, hz, h⟩ := Option.bind_eq_some_iff.1 h
      obtain ⟨hb, hy'⟩ := toNat_of_tail? hy
      obtain ⟨hd, hz'⟩ := toNat_of_tail? hz
      simp only at h
      split at h
      · next hn =>
          have hc := toNat_of_scalar? h
          rw [encodeChar_three (by omega) (by omega), ofNat_eq (b := a) (by omega),
            ofNat_eq (b := b) (by omega), ofNat_eq (b := d) (by omega)]
      · exact absurd h (by simp)
  · exact absurd h (by simp)

theorem encodeChar_of_four? {a b d e : UInt8} {c : Char} (h : four? a b d e = some c) :
    String.utf8EncodeChar c = [a, b, d, e] := by
  have h₁ : (0xF0 : UInt8).toNat = 240 := rfl
  have h₂ : (0xF4 : UInt8).toNat = 244 := rfl
  unfold four? at h
  split at h
  · next ha =>
      rw [UInt8.le_iff_toNat_le, UInt8.le_iff_toNat_le, h₁, h₂] at ha
      obtain ⟨x, hx, h⟩ := Option.bind_eq_some_iff.1 h
      obtain ⟨y, hy, h⟩ := Option.bind_eq_some_iff.1 h
      obtain ⟨z, hz, h⟩ := Option.bind_eq_some_iff.1 h
      obtain ⟨hb, hx'⟩ := toNat_of_tail? hx
      obtain ⟨hd, hy'⟩ := toNat_of_tail? hy
      obtain ⟨he, hz'⟩ := toNat_of_tail? hz
      simp only at h
      split at h
      · next hn =>
          have hc := toNat_of_scalar? h
          rw [encodeChar_four (by omega), ofNat_eq (b := a) (by omega),
            ofNat_eq (b := b) (by omega), ofNat_eq (b := d) (by omega),
            ofNat_eq (b := e) (by omega)]
      · exact absurd h (by simp)
  · exact absurd h (by simp)

/-! ## Reading a text character by character -/

theorem of_map_cons_eq_some {α : Type} {o : Option (List (Char × α))} {ch c : Char} {a' a : α}
    {out : List (Char × α)} (h : o.map ((ch, a') :: ·) = some ((c, a) :: out)) :
    ch = c ∧ a' = a ∧ o = some out := by
  obtain ⟨out', ho, he⟩ := Option.map_eq_some_iff.1 h
  simp only [List.cons.injEq, Prod.mk.injEq] at he
  exact ⟨he.1.1, he.1.2, by rw [ho, he.2]⟩

theorem decodeBy_eq_some_nil_iff {α : Type} {byte : α → UInt8} {items : List α} :
    decodeBy byte items = some [] ↔ items = [] := by
  constructor
  · intro h
    rw [decodeBy.eq_def] at h
    cases items with
    | nil => rfl
    | cons a r₁ =>
        simp only at h
        repeat' split at h
        all_goals simp at h
  · rintro rfl
    rfl

/-- The first character read is the one whose bytes come first. -/
theorem exists_of_decodeBy_eq_some_cons {α : Type} {byte : α → UInt8} {items : List α}
    {c : Char} {a : α} {out : List (Char × α)} (h : decodeBy byte items = some ((c, a) :: out)) :
    ∃ more rest, items = a :: (more ++ rest) ∧
      (a :: more).map byte = String.utf8EncodeChar c ∧ decodeBy byte rest = some out := by
  rw [decodeBy.eq_def] at h
  cases items with
  | nil => simp at h
  | cons a' r₁ =>
      -- the readers are tried in turn, and each takes one byte more than the one before
      simp only at h
      split at h
      · next ch h₁ =>
          obtain ⟨rfl, rfl, hr⟩ := of_map_cons_eq_some h
          exact ⟨[], r₁, rfl, by simp [encodeChar_of_one? h₁], hr⟩
      · split at h
        · exact absurd h (by simp)
        · next b r₂ =>
            split at h
            · next ch h₂ =>
                obtain ⟨rfl, rfl, hr⟩ := of_map_cons_eq_some h
                exact ⟨[b], r₂, rfl, by simp [encodeChar_of_two? h₂], hr⟩
            · split at h
              · exact absurd h (by simp)
              · next d r₃ =>
                  split at h
                  · next ch h₃ =>
                      obtain ⟨rfl, rfl, hr⟩ := of_map_cons_eq_some h
                      exact ⟨[b, d], r₃, rfl, by simp [encodeChar_of_three? h₃], hr⟩
                  · split at h
                    · exact absurd h (by simp)
                    · next e r₄ =>
                        split at h
                        · next ch h₄ =>
                            obtain ⟨rfl, rfl, hr⟩ := of_map_cons_eq_some h
                            exact ⟨[b, d, e], r₄, rfl, by simp [encodeChar_of_four? h₄], hr⟩
                        · exact absurd h (by simp)

theorem decodeBy_eq_some_cons_iff {α : Type} {byte : α → UInt8} {items : List α}
    {c : Char} {a : α} {out : List (Char × α)} :
    decodeBy byte items = some ((c, a) :: out) ↔
      ∃ more rest, items = a :: (more ++ rest) ∧
        (a :: more).map byte = String.utf8EncodeChar c ∧ decodeBy byte rest = some out := by
  constructor
  · exact exists_of_decodeBy_eq_some_cons
  · rintro ⟨more, rest, rfl, hbytes, hr⟩
    rw [decodeBy_of_encodeChar hbytes, hr, Option.map_some]

/-- The bytes that are read are those that the text is written in. -/
theorem encode_of_decode {bytes : List UInt8} {cs : List Char} (h : decode bytes = some cs) :
    encode cs = bytes := by
  obtain ⟨out, ho, rfl⟩ := Option.map_eq_some_iff.1 h
  -- the characters are read off one by one, each with its own bytes
  clear h
  induction out generalizing bytes with
  | nil => rw [decodeBy_eq_some_nil_iff.1 ho]; rfl
  | cons p out ih =>
      obtain ⟨c, a⟩ := p
      obtain ⟨more, rest, rfl, hbytes, hr⟩ := decodeBy_eq_some_cons_iff.1 ho
      have hrest : encode (out.map Prod.fst) = rest := ih hr
      rw [List.map_id] at hbytes
      rw [List.map_cons, encode_cons, ← hbytes, hrest, List.cons_append]

theorem decode_eq_some_iff {bytes : List UInt8} {cs : List Char} :
    decode bytes = some cs ↔ encode cs = bytes := by
  constructor
  · exact encode_of_decode
  · rintro rfl
    exact decode_encode cs

/-! ## Self-synchronisation -/

theorem isFirst_encodeChar {c : Char} {a : UInt8} {more : List UInt8}
    (h : a :: more = String.utf8EncodeChar c) : a.IsUTF8FirstByte := by
  have hlen : 0 < (String.utf8EncodeChar c).length := by
    rw [← h]
    exact Nat.succ_pos _
  have h₀ : (String.utf8EncodeChar c)[0] = a := by simp [← h]
  rw [← h₀]
  exact UInt8.isUTF8FirstByte_getElem_utf8EncodeChar.2 rfl

theorem not_isFirst_of_mem_tail {c : Char} {a : UInt8} {more : List UInt8}
    (h : a :: more = String.utf8EncodeChar c) {b : UInt8} (hb : b ∈ more) :
    ¬ b.IsUTF8FirstByte := by
  obtain ⟨i, hi, rfl⟩ := List.mem_iff_getElem.1 hb
  have hlen : i + 1 < (String.utf8EncodeChar c).length := by
    rw [← h, List.length_cons]
    omega
  have hget : (String.utf8EncodeChar c)[i + 1] = more[i] := by simp [← h]
  rw [← hget, UInt8.isUTF8FirstByte_getElem_utf8EncodeChar]
  omega

/-- No character's bytes start those of another. -/
theorem encodeChar_append_inj {c d : Char} {x y : List UInt8}
    (h : String.utf8EncodeChar c ++ x = String.utf8EncodeChar d ++ y) : c = d ∧ x = y := by
  -- core's reader finds both characters at the front of the same bytes
  have hc := ByteArray.utf8DecodeChar?_utf8EncodeChar_append (b := x.toByteArray) (c := c)
  have hd := ByteArray.utf8DecodeChar?_utf8EncodeChar_append (b := y.toByteArray) (c := d)
  rw [← List.toByteArray_append] at hc hd
  rw [h, hd, Option.some.injEq] at hc
  subst hc
  exact ⟨rfl, List.append_cancel_left h⟩

end Restconf.Text.Utf8
