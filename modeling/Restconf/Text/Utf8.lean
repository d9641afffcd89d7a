set_option autoImplicit false

/-! # UTF-8

Percent escapes spell bytes, so escaped text goes through UTF-8 in both directions. `encode` is
core's encoding of each character in turn. `decodeBy` reads a list of items that each carry a
byte and returns every character with the item of its first byte, so that what is known about a
byte (whether it was escaped) can be asked of a character; `decode` is the plain case.

Only shortest forms of Unicode scalar values are read, so each text has one spelling in bytes.
`decodeBy_of_encodeChar` says that a written character reads back in any context, and
`decode_encode` that a written text does. -/

namespace Restconf.Text.Utf8

/-- The UTF-8 bytes of a text. -/
def encode (cs : List Char) : List UInt8 :=
  cs.flatMap String.utf8EncodeChar

theorem encode_cons (c : Char) (cs : List Char) :
    encode (c :: cs) = String.utf8EncodeChar c ++ encode cs := rfl

/-! ## Characters of one to four bytes -/

/-- The character with code point `n`, unless `n` is a surrogate or out of range. -/
def scalar? (n : Nat) : Option Char :=
  if n.isValidChar then some (Char.ofNat n) else none

/-- The six bits of a continuation byte. -/
def tail? (b : UInt8) : Option Nat :=
  if 0x80 ≤ b ∧ b ≤ 0xBF then some (b.toNat - 0x80) else none

/-- The character of a single byte. -/
def one? (a : UInt8) : Option Char :=
  if a ≤ 0x7F then some (Char.ofNat a.toNat) else none

/-- The character of two bytes. -/
def two? (a b : UInt8) : Option Char :=
  if 0xC2 ≤ a ∧ a ≤ 0xDF then
    (tail? b).bind fun y => scalar? ((a.toNat - 0xC0) * 64 + y)
  else none

/-- The character of three bytes; one below U+0800 would have a shorter form. -/
def three? (a b c : UInt8) : Option Char :=
  if 0xE0 ≤ a ∧ a ≤ 0xEF then
    (tail? b).bind fun y => (tail? c).bind fun z =>
      let n := ((a.toNat - 0xE0) * 64 + y) * 64 + z
      if 0x800 ≤ n then scalar? n else none
  else none

/-- The character of four bytes; one below U+10000 would have a shorter form. -/
def four? (a b c d : UInt8) : Option Char :=
  if 0xF0 ≤ a ∧ a ≤ 0xF4 then
    (tail? b).bind fun x => (tail? c).bind fun y => (tail? d).bind fun z =>
      let n := (((a.toNat - 0xF0) * 64 + x) * 64 + y) * 64 + z
      if 0x10000 ≤ n then scalar? n else none
  else none

/-! ## Texts -/

/-- The characters spelled by the items' bytes, each with the item of its first byte; none if
    the bytes are not UTF-8. -/
def decodeBy {α : Type} (byte : α → UInt8) : List α → Option (List (Char × α))
  | [] => some []
  | a :: r₁ =>
    match one? (byte a) with
    | some ch => (decodeBy byte r₁).map ((ch, a) :: ·)
    | none =>
      match r₁ with
      | [] => none
      | b :: r₂ =>
        match two? (byte a) (byte b) with
        | some ch => (decodeBy byte r₂).map ((ch, a) :: ·)
        | none =>
          match r₂ with
          | [] => none
          | c :: r₃ =>
            match three? (byte a) (byte b) (byte c) with
            | some ch => (decodeBy byte r₃).map ((ch, a) :: ·)
            | none =>
              match r₃ with
              | [] => none
              | d :: r₄ =>
                match four? (byte a) (byte b) (byte c) (byte d) with
                | some ch => (decodeBy byte r₄).map ((ch, a) :: ·)
                | none => none

/-- The text that the bytes spell; none if they are not UTF-8. -/
def decode (bytes : List UInt8) : Option (List Char) :=
  (decodeBy id bytes).map (·.map Prod.fst)

/-- What an item is beyond its byte does not matter to the reading. -/
theorem decodeBy_map {α β : Type} (byte : β → UInt8) (f : α → β) (items : List α) :
    decodeBy byte (items.map f) =
      (decodeBy (byte ∘ f) items).map (·.map fun (c, a) => (c, f a)) := by
  fun_induction decodeBy (byte ∘ f) items <;> rw [decodeBy.eq_def] <;>
    simp_all [Function.comp_def]

/-! ## A written text reads back -/

theorem scalar?_toNat (c : Char) : scalar? c.toNat = some c := by
  have h : c.toNat.isValidChar := c.valid
  simp [scalar?, h]

theorem tail?_ofNat (n : Nat) : tail? (UInt8.ofNat (n % 64 + 128)) = some (n % 64) := by
  have h : (UInt8.ofNat (n % 64 + 128)).toNat = n % 64 + 128 := by
    rw [UInt8.toNat_ofNat']; omega
  have h₁ : (0x80 : UInt8).toNat = 128 := rfl
  have h₂ : (0xBF : UInt8).toNat = 191 := rfl
  simp only [tail?, UInt8.le_iff_toNat_le, h, h₁, h₂]
  rw [if_pos (by omega)]
  simp

theorem one?_ofNat {n : Nat} (h : n ≤ 0x7F) : one? (UInt8.ofNat n) = some (Char.ofNat n) := by
  have h' : (UInt8.ofNat n).toNat = n := by rw [UInt8.toNat_ofNat']; omega
  have h₁ : (0x7F : UInt8).toNat = 127 := rfl
  simp only [one?, UInt8.le_iff_toNat_le, h', h₁]
  rw [if_pos h]

theorem one?_eq_none {b : UInt8} (h : 0x7F < b.toNat) : one? b = none := by
  have h₁ : (0x7F : UInt8).toNat = 127 := rfl
  simp only [one?, UInt8.le_iff_toNat_le, h₁]
  rw [if_neg (by omega)]

theorem two?_eq_none {a b : UInt8} (h : 0xDF < a.toNat) : two? a b = none := by
  have h₁ : (0xDF : UInt8).toNat = 0xDF := rfl
  simp only [two?, UInt8.le_iff_toNat_le, h₁]
  rw [if_neg (by omega)]

theorem three?_eq_none {a b c : UInt8} (h : 0xEF < a.toNat) : three? a b c = none := by
  have h₁ : (0xEF : UInt8).toNat = 0xEF := rfl
  simp only [three?, UInt8.le_iff_toNat_le, h₁]
  rw [if_neg (by omega)]

theorem two?_ofNat (c : Char) (h : 0x7F < c.toNat) (h' : c.toNat ≤ 0x7FF) :
    two? (UInt8.ofNat (c.toNat / 64 % 32 + 192)) (UInt8.ofNat (c.toNat % 64 + 128)) = some c := by
  have ha : (UInt8.ofNat (c.toNat / 64 % 32 + 192)).toNat = c.toNat / 64 % 32 + 192 := by
    rw [UInt8.toNat_ofNat']; omega
  have h₁ : (0xC2 : UInt8).toNat = 0xC2 := rfl
  have h₂ : (0xDF : UInt8).toNat = 0xDF := rfl
  simp only [two?, UInt8.le_iff_toNat_le, ha, h₁, h₂, tail?_ofNat, Option.bind_some]
  rw [if_pos (by omega), ← scalar?_toNat c]
  congr 1
  omega

theorem three?_ofNat (c : Char) (h : 0x7FF < c.toNat) (h' : c.toNat ≤ 0xFFFF) :
    three? (UInt8.ofNat (c.toNat / 4096 % 16 + 224)) (UInt8.ofNat (c.toNat / 64 % 64 + 128))
      (UInt8.ofNat (c.toNat % 64 + 128)) = some c := by
  have ha : (UInt8.ofNat (c.toNat / 4096 % 16 + 224)).toNat = c.toNat / 4096 % 16 + 224 := by
    rw [UInt8.toNat_ofNat']; omega
  have h₁ : (0xE0 : UInt8).toNat = 0xE0 := rfl
  have h₂ : (0xEF : UInt8).toNat = 0xEF := rfl
  simp only [three?, UInt8.le_iff_toNat_le, ha, h₁, h₂, tail?_ofNat, Option.bind_some]
  rw [if_pos (by omega), if_pos (by omega), ← scalar?_toNat c]
  congr 1
  omega

theorem four?_ofNat (c : Char) (h : 0xFFFF < c.toNat) :
    four? (UInt8.ofNat (c.toNat / 262144 % 8 + 240)) (UInt8.ofNat (c.toNat / 4096 % 64 + 128))
      (UInt8.ofNat (c.toNat / 64 % 64 + 128)) (UInt8.ofNat (c.toNat % 64 + 128)) = some c := by
  have hc : c.toNat < 0x110000 := by
    have := c.valid
    rcases this with h | h
    · show c.val.toNat < _; omega
    · exact h.2
  have ha : (UInt8.ofNat (c.toNat / 262144 % 8 + 240)).toNat = c.toNat / 262144 % 8 + 240 := by
    rw [UInt8.toNat_ofNat']; omega
  have h₁ : (0xF0 : UInt8).toNat = 0xF0 := rfl
  have h₂ : (0xF4 : UInt8).toNat = 0xF4 := rfl
  simp only [four?, UInt8.le_iff_toNat_le, ha, h₁, h₂, tail?_ofNat, Option.bind_some]
  rw [if_pos (by omega), if_pos (by omega), ← scalar?_toNat c]
  congr 1
  omega

/-- Items that carry the bytes of a character are read as that character, whatever follows. -/
theorem decodeBy_of_encodeChar {α : Type} {byte : α → UInt8} {a : α} {more rest : List α}
    {c : Char} (h : (a :: more).map byte = String.utf8EncodeChar c) :
    decodeBy byte (a :: (more ++ rest)) = (decodeBy byte rest).map ((c, a) :: ·) := by
  have hn : c.val.toNat = c.toNat := rfl
  simp only [String.utf8EncodeChar, hn] at h
  split at h
  · next h₁ =>
    simp only [List.map_cons, List.cons.injEq, List.map_eq_nil_iff] at h
    obtain ⟨ha, rfl⟩ := h
    have e₁ : one? (byte a) = some c := by rw [ha, one?_ofNat h₁, Char.ofNat_toNat]
    rw [List.nil_append, decodeBy.eq_def]
    simp only [e₁]
  · next h₁ =>
    split at h
    · next h₂ =>
      obtain _ | ⟨b, _ | ⟨_, _⟩⟩ := more <;>
        simp only [List.map_cons, List.map_nil, List.cons.injEq, and_true, reduceCtorEq, and_false]
          at h
      have e₁ : one? (byte a) = none := one?_eq_none (by rw [h.1, UInt8.toNat_ofNat']; omega)
      have e₂ : two? (byte a) (byte b) = some c := by rw [h.1, h.2, two?_ofNat c (by omega) h₂]
      rw [List.cons_append, List.nil_append, decodeBy.eq_def]
      simp only [e₁, e₂]
    · next h₂ =>
      split at h
      · next h₃ =>
        obtain _ | ⟨b, _ | ⟨x, _ | ⟨_, _⟩⟩⟩ := more <;>
          simp only [List.map_cons, List.map_nil, List.cons.injEq, and_true, reduceCtorEq,
            and_false] at h
        have lead : 0xDF < (byte a).toNat := by rw [h.1, UInt8.toNat_ofNat']; omega
        have e₁ : one? (byte a) = none := one?_eq_none (by omega)
        have e₂ : two? (byte a) (byte b) = none := two?_eq_none lead
        have e₃ : three? (byte a) (byte b) (byte x) = some c := by
          rw [h.1, h.2.1, h.2.2, three?_ofNat c (by omega) h₃]
        rw [List.cons_append, List.cons_append, List.nil_append, decodeBy.eq_def]
        simp only [e₁, e₂, e₃]
      · next h₃ =>
        obtain _ | ⟨b, _ | ⟨x, _ | ⟨y, _ | ⟨_, _⟩⟩⟩⟩ := more <;>
          simp only [List.map_cons, List.map_nil, List.cons.injEq, and_true, reduceCtorEq,
            and_false] at h
        have lead : 0xEF < (byte a).toNat := by rw [h.1, UInt8.toNat_ofNat']; omega
        have e₁ : one? (byte a) = none := one?_eq_none (by omega)
        have e₂ : two? (byte a) (byte b) = none := two?_eq_none (by omega)
        have e₃ : three? (byte a) (byte b) (byte x) = none := three?_eq_none lead
        have e₄ : four? (byte a) (byte b) (byte x) (byte y) = some c := by
          rw [h.1, h.2.1, h.2.2.1, h.2.2.2, four?_ofNat c (by omega)]
        rw [List.cons_append, List.cons_append, List.cons_append, List.nil_append, decodeBy.eq_def]
        simp only [e₁, e₂, e₃, e₄]

theorem decode_encode (cs : List Char) : decode (encode cs) = some cs := by
  suffices h : decodeBy id (encode cs) =
      some (cs.map fun c => (c, (String.utf8EncodeChar c).headD 0)) by
    simp [decode, h, Function.comp_def]
  induction cs with
  | nil => rfl
  | cons c cs ih =>
    match hc : String.utf8EncodeChar c with
    | [] => exact absurd hc String.utf8EncodeChar_ne_nil
    | a :: more =>
      rw [encode_cons, hc, List.cons_append, decodeBy_of_encodeChar (by simpa using hc.symm), ih]
      simp [hc]

end Restconf.Text.Utf8
