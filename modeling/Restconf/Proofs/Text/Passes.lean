import Restconf.Proofs.Text.Percent

set_option autoImplicit false

/-! # Escaped text in two passes

`Percent.decodeWithMarks` takes each byte off the text together with its mark. The marks can also be
found in a pass of their own over the stored text: one pass replaces the escapes and reads the bytes
as UTF-8, the other notes for each byte whether an escape spells it, and a character's mark is
looked up at the place of its first byte.

Nothing in that reader ties the marks to the bytes, so that they stay in step is a theorem:
`decodeInPasses_eq` and `decodeWithMarksInPasses_eq` say that it reads what `decode` and
`decodeWithMarks` read. How the escapes are replaced is left open (`Unescapes`): a complete escape
becomes its byte, and other bytes stay as they are. -/

namespace Restconf.Text.Percent

/-! ## The passes -/

/-- The percent sign as it is stored. -/
def percent : UInt8 :=
  0x25

/-- The value of a hexadecimal digit that is given as its byte. -/
def hexByte? (b : UInt8) : Option Nat :=
  Hex.value? (Char.ofNat b.toNat)

/-- Two hexadecimal digits follow every percent sign. -/
def isWellFormed : List UInt8 → Bool
  | [] => true
  | b :: rest =>
    if b = percent then
      match rest with
      | hi :: lo :: rest' => (hexByte? hi).isSome && (hexByte? lo).isSome && isWellFormed rest'
      | _ => false
    else isWellFormed rest

/-- For each byte that the stored text spells, whether an escape spells it. -/
def byteMarks : List UInt8 → List Bool
  | [] => []
  | b :: rest =>
    if b = percent then
      match rest with
      | _ :: _ :: rest' => true :: byteMarks rest'
      | _ => [true]
    else false :: byteMarks rest

/-- A function that replaces complete escapes by their bytes, and leaves other bytes alone. What it
    makes of an incomplete escape is left open. -/
structure Unescapes (unescape : List UInt8 → List UInt8) : Prop where
  nil : unescape [] = []
  literal {b : UInt8} {rest : List UInt8} : b ≠ percent →
    unescape (b :: rest) = b :: unescape rest
  escape {hi lo : UInt8} {x y : Nat} {rest : List UInt8} :
    hexByte? hi = some x → hexByte? lo = some y →
      unescape (percent :: hi :: lo :: rest) = UInt8.ofNat (16 * x + y) :: unescape rest

/-- The characters of a text that starts at byte `place`, each with the place of its first byte. -/
def placed : Nat → List Char → List (Nat × Char)
  | _, [] => []
  | place, c :: cs => (place, c) :: placed (place + c.utf8Size) cs

/-- The text without its escapes, by way of its bytes. -/
def decodeInPasses (unescape : List UInt8 → List UInt8) (raw : List Char) : Option (List Char) :=
  if isWellFormed (Utf8.encode raw) then Utf8.decode (unescape (Utf8.encode raw)) else none

/-- The characters with the marks that stand at the places of their first bytes. -/
def lookUpMarks (marks : List Bool) (cs : List (Nat × Char)) : List Marked :=
  cs.map fun (place, c) => ⟨c, marks[place]?.getD false⟩

@[simp] theorem lookUpMarks_cons (marks : List Bool) (place : Nat) (c : Char)
    (cs : List (Nat × Char)) :
    lookUpMarks marks ((place, c) :: cs) =
      ⟨c, marks[place]?.getD false⟩ :: lookUpMarks marks cs := rfl

/-- The text without its escapes, with the marks that the second pass finds. -/
def decodeWithMarksInPasses (unescape : List UInt8 → List UInt8) (raw : List Char) :
    Option (List Marked) :=
  (decodeInPasses unescape raw).map fun cs =>
    lookUpMarks (byteMarks (Utf8.encode raw)) (placed 0 cs)

/-- Replaces complete escapes, and leaves incomplete ones as they are. -/
def unescape : List UInt8 → List UInt8
  | b :: hi :: lo :: rest =>
    if b = percent then
      match hexByte? hi, hexByte? lo with
      | some x, some y => UInt8.ofNat (16 * x + y) :: unescape rest
      | _, _ => b :: unescape (hi :: lo :: rest)
    else b :: unescape (hi :: lo :: rest)
  | short => short

theorem unescapes_unescape : Unescapes unescape where
  nil := rfl
  literal {b rest} hb := by
    obtain _ | ⟨hi, _ | ⟨lo, rest⟩⟩ := rest
    · rfl
    · rfl
    · rw [unescape, if_neg hb]
  escape hhi hlo := by
    rw [unescape, if_pos rfl]
    simp only [hhi, hlo]

/-! ## Digits and percent signs among the bytes -/

/-- A character beyond ASCII has no byte below 128. -/
theorem lt_toNat_of_mem_encodeChar {c : Char} (h : 0x7F < c.toNat) {b : UInt8}
    (hb : b ∈ String.utf8EncodeChar c) : 0x7F < b.toNat := by
  by_cases h₂ : c.toNat ≤ 0x7FF
  · rw [Utf8.encodeChar_two h h₂] at hb
    simp only [List.mem_cons, List.not_mem_nil, or_false] at hb
    rcases hb with rfl | rfl <;> rw [UInt8.toNat_ofNat'] <;> omega
  · by_cases h₃ : c.toNat ≤ 0xFFFF
    · rw [Utf8.encodeChar_three (by omega) h₃] at hb
      simp only [List.mem_cons, List.not_mem_nil, or_false] at hb
      rcases hb with rfl | rfl | rfl <;> rw [UInt8.toNat_ofNat'] <;> omega
    · rw [Utf8.encodeChar_four (by omega)] at hb
      simp only [List.mem_cons, List.not_mem_nil, or_false] at hb
      rcases hb with rfl | rfl | rfl | rfl <;> rw [UInt8.toNat_ofNat'] <;> omega

theorem percent_not_mem_encodeChar {c : Char} (h : c ≠ '%') :
    percent ∉ String.utf8EncodeChar c := by
  intro hmem
  by_cases hc : c.toNat ≤ 0x7F
  · rw [Utf8.encodeChar_one hc, List.mem_singleton] at hmem
    have hval : percent.toNat = c.toNat := by
      rw [hmem, UInt8.toNat_ofNat']
      omega
    exact h (Char.toNat_inj.1 hval.symm)
  · exact absurd (lt_toNat_of_mem_encodeChar (by omega) hmem) (by decide)

theorem toNat_le_of_value? {c : Char} {x : Nat} (h : Hex.value? c = some x) :
    c.toNat ≤ 0x7F := by
  unfold Hex.value? at h
  split at h
  · next hc => exact Nat.le_trans hc.2 (by decide)
  · split at h
    · next hc => exact Nat.le_trans hc.2 (by decide)
    · split at h
      · next hc => exact Nat.le_trans hc.2 (by decide)
      · exact absurd h (by simp)

theorem value?_eq_none {c : Char} (h : 0x7F < c.toNat) : Hex.value? c = none := by
  by_contra hne
  obtain ⟨x, hx⟩ := Option.ne_none_iff_exists'.1 hne
  have hle := toNat_le_of_value? hx
  omega

theorem hexByte?_eq_none {b : UInt8} (h : 0x7F < b.toNat) : hexByte? b = none := by
  have hb : b.toNat < 256 := b.toNat_lt
  have hchar : (Char.ofNat b.toNat).toNat = b.toNat := by
    rw [Char.ofNat, dif_pos (Or.inl (by omega))]
    rfl
  exact value?_eq_none (by omega)

theorem hexByte?_ofNat {c : Char} (h : c.toNat ≤ 0x7F) :
    hexByte? (UInt8.ofNat c.toNat) = Hex.value? c := by
  have hval : (UInt8.ofNat c.toNat).toNat = c.toNat := by
    rw [UInt8.toNat_ofNat']
    omega
  rw [hexByte?, hval, Char.ofNat_toNat]

/-- The first byte of a text is a digit if and only if the first character is. -/
theorem hexByte?_head_encode (cs : List Char) :
    (Utf8.encode cs).head?.bind hexByte? = cs.head?.bind Hex.value? := by
  cases cs with
  | nil => rfl
  | cons c cs =>
      rw [Utf8.encode_cons, List.head?_append_of_ne_nil _ String.utf8EncodeChar_ne_nil,
        List.head?_cons, Option.bind_some]
      by_cases hc : c.toNat ≤ 0x7F
      · rw [Utf8.encodeChar_one hc, List.head?_cons, Option.bind_some, hexByte?_ofNat hc]
      · rw [value?_eq_none (by omega), Option.bind_eq_none_iff]
        intro b hb
        exact hexByte?_eq_none (lt_toNat_of_mem_encodeChar (by omega) (List.mem_of_mem_head? hb))

/-- A digit is stored as one byte. -/
theorem encode_cons_of_value? {c : Char} {x : Nat} (h : Hex.value? c = some x) (cs : List Char) :
    ∃ b, hexByte? b = some x ∧ Utf8.encode (c :: cs) = b :: Utf8.encode cs := by
  have hc := toNat_le_of_value? h
  refine ⟨UInt8.ofNat c.toNat, (hexByte?_ofNat hc).trans h, ?_⟩
  rw [Utf8.encode_cons, Utf8.encodeChar_one hc, List.singleton_append]

theorem encode_percent_cons (cs : List Char) :
    Utf8.encode ('%' :: cs) = percent :: Utf8.encode cs := rfl

/-! ## The passes agree with the reader of bytes -/

theorem isWellFormed_append {bytes : List UInt8} (h : percent ∉ bytes) (rest : List UInt8) :
    isWellFormed (bytes ++ rest) = isWellFormed rest := by
  induction bytes with
  | nil => rfl
  | cons b bytes ih =>
      simp only [List.mem_cons, not_or] at h
      rw [List.cons_append, isWellFormed.eq_def]
      simp only [if_neg (Ne.symm h.1), ih h.2]

theorem byteMarks_append {bytes : List UInt8} (h : percent ∉ bytes) (rest : List UInt8) :
    byteMarks (bytes ++ rest) = List.replicate bytes.length false ++ byteMarks rest := by
  induction bytes with
  | nil => rfl
  | cons b bytes ih =>
      simp only [List.mem_cons, not_or] at h
      rw [List.cons_append, byteMarks.eq_def]
      simp only [if_neg (Ne.symm h.1), ih h.2]
      rfl

theorem Unescapes.append {unescape : List UInt8 → List UInt8} (h : Unescapes unescape)
    {bytes : List UInt8} (hb : percent ∉ bytes) (rest : List UInt8) :
    unescape (bytes ++ rest) = bytes ++ unescape rest := by
  induction bytes with
  | nil => rfl
  | cons b bytes ih =>
      simp only [List.mem_cons, not_or] at hb
      rw [List.cons_append, h.literal (Ne.symm hb.1), ih hb.2, List.cons_append]

/-- A percent sign that no digit follows. -/
theorem isWellFormed_percent {bytes : List UInt8} (h : bytes.head?.bind hexByte? = none) :
    isWellFormed (percent :: bytes) = false := by
  obtain _ | ⟨hi, _ | ⟨lo, rest⟩⟩ := bytes
  · rfl
  · rfl
  · rw [List.head?_cons, Option.bind_some] at h
    rw [isWellFormed.eq_def]
    simp [h]

/-- A percent sign that only one digit follows. -/
theorem isWellFormed_percent_cons {hi : UInt8} {bytes : List UInt8}
    (h : bytes.head?.bind hexByte? = none) : isWellFormed (percent :: hi :: bytes) = false := by
  obtain _ | ⟨lo, rest⟩ := bytes
  · rfl
  · rw [List.head?_cons, Option.bind_some] at h
    rw [isWellFormed.eq_def]
    simp [h]

/-- A percent sign that is not followed by two digits. -/
theorem isWellFormed_encode_percent {rest : List Char}
    (h : ∀ hi lo rest', rest = hi :: lo :: rest' → ∀ x y,
      Hex.value? hi = some x → Hex.value? lo = some y → False) :
    isWellFormed (Utf8.encode ('%' :: rest)) = false := by
  rw [encode_percent_cons]
  cases hhead : rest.head?.bind Hex.value? with
  | none => exact isWellFormed_percent ((hexByte?_head_encode rest).trans hhead)
  | some x =>
      -- the first character is a digit, so it is one byte, and the next one is no digit
      obtain ⟨hi, hrest, hhi⟩ := Option.bind_eq_some_iff.1 hhead
      obtain ⟨rest, rfl⟩ := List.head?_eq_some_iff.1 hrest
      obtain ⟨b, -, hb⟩ := encode_cons_of_value? hhi rest
      rw [hb]
      refine isWellFormed_percent_cons ?_
      rw [hexByte?_head_encode, Option.bind_eq_none_iff]
      intro lo hlo
      obtain ⟨rest, rfl⟩ := List.head?_eq_some_iff.1 hlo
      exact Option.eq_none_iff_forall_ne_some.2 fun y hy => h hi lo rest rfl x y hhi hy

theorem isWellFormed_encode (raw : List Char) :
    isWellFormed (Utf8.encode raw) = (octets? raw).isSome := by
  fun_induction octets? raw with
  | case1 => rfl
  | case2 hi lo rest x y hy hx ih =>
      obtain ⟨bl, hbl, hlo⟩ := encode_cons_of_value? hy rest
      obtain ⟨bh, hbh, hhi⟩ := encode_cons_of_value? hx (lo :: rest)
      rw [encode_percent_cons, hhi, hlo, isWellFormed.eq_def]
      simp only [if_true, hbh, hbl, Option.isSome_some, Bool.true_and, ih, Option.isSome_map]
  | case3 hi lo rest hbad =>
      refine isWellFormed_encode_percent ?_
      rintro _ _ _ ⟨⟩
      exact hbad
  | case4 rest hshort =>
      refine isWellFormed_encode_percent ?_
      intro hi lo rest' hrest
      exact absurd hrest (hshort hi lo rest')
  | case5 c rest hc ih =>
      rw [Utf8.encode_cons, isWellFormed_append (percent_not_mem_encodeChar hc), ih,
        Option.isSome_map]

/-- The check of the bytes is that of the text. -/
theorem isWellFormed_encode_iff (raw : List Char) :
    isWellFormed (Utf8.encode raw) = true ↔ EscapesComplete raw := by
  rw [isWellFormed_encode, Option.isSome_iff_exists, exists_octets?_iff]

/-- The first pass finds the bytes, and the second one their marks. -/
theorem passes_of_octets? {unescape : List UInt8 → List UInt8} (h : Unescapes unescape)
    {raw : List Char} {os : List Octet} (ho : octets? raw = some os) :
    unescape (Utf8.encode raw) = os.map Octet.byte ∧
      byteMarks (Utf8.encode raw) = os.map Octet.escaped := by
  fun_induction octets? raw generalizing os with
  | case1 =>
      obtain rfl := Option.some.inj ho
      exact ⟨h.nil, rfl⟩
  | case2 hi lo rest x y hy hx ih =>
      obtain ⟨os', ho', rfl⟩ := Option.map_eq_some_iff.1 ho
      obtain ⟨hbytes, hmarks⟩ := ih ho'
      obtain ⟨bl, hbl, hlo⟩ := encode_cons_of_value? hy rest
      obtain ⟨bh, hbh, hhi⟩ := encode_cons_of_value? hx (lo :: rest)
      rw [encode_percent_cons, hhi, hlo, h.escape hbh hbl, hbytes, byteMarks.eq_def]
      simp only [if_true, hmarks, List.map_cons, and_self]
  | case3 => exact absurd ho (by simp)
  | case4 => exact absurd ho (by simp)
  | case5 c rest hc ih =>
      obtain ⟨os', ho', rfl⟩ := Option.map_eq_some_iff.1 ho
      obtain ⟨hbytes, hmarks⟩ := ih ho'
      have hpercent := percent_not_mem_encodeChar hc
      rw [Utf8.encode_cons, h.append hpercent, byteMarks_append hpercent, hbytes, hmarks,
        List.map_append, map_byte_map, List.map_append, List.map_map]
      exact ⟨rfl, by rw [Function.comp_def, List.map_const']⟩

theorem decodeInPasses_eq {unescape : List UInt8 → List UInt8} (h : Unescapes unescape)
    (raw : List Char) : decodeInPasses unescape raw = decode raw := by
  rw [decodeInPasses, isWellFormed_encode, decode]
  cases ho : octets? raw with
  | none => rfl
  | some os => rw [(passes_of_octets? h ho).1]; rfl

/-! ## Marks are looked up at the right places -/

/-- The bytes of a character of escaped text, all with its mark. -/
def Marked.octets (m : Marked) : List Octet :=
  (String.utf8EncodeChar m.char).map (⟨·, m.escaped⟩)

theorem octets?_of_spells {raw : List Char} {ms : List Marked} (h : Spells raw ms) :
    octets? raw = some (ms.flatMap Marked.octets) := by
  induction h with
  | nil => rfl
  | cons hp _ ih =>
      rw [octets?_of_spellsChar hp, ih, Option.map_some]
      rfl

theorem map_escaped_octets (m : Marked) :
    m.octets.map Octet.escaped = List.replicate m.char.utf8Size m.escaped := by
  rw [Marked.octets, List.map_map, Function.comp_def, List.map_const',
    String.length_utf8EncodeChar]

/-- The marks of all bytes hold each character's mark at the place of its first byte. -/
theorem lookUpMarks_placed (before : List Bool) (ms : List Marked) :
    lookUpMarks (before ++ (ms.flatMap Marked.octets).map Octet.escaped)
      (placed before.length (ms.map Marked.char)) = ms := by
  induction ms generalizing before with
  | nil => rfl
  | cons m ms ih =>
      -- the marks of the first character's bytes are passed over with those before them
      have hplace : before.length + m.char.utf8Size =
          (before ++ List.replicate m.char.utf8Size m.escaped).length := by
        rw [List.length_append, List.length_replicate]
      have hmark : (before ++ (List.replicate m.char.utf8Size m.escaped ++
          (ms.flatMap Marked.octets).map Octet.escaped))[before.length]? = some m.escaped := by
        rw [List.getElem?_append_right (Nat.le_refl _), Nat.sub_self,
          List.getElem?_append_left (by simpa using m.char.utf8Size_pos),
          List.getElem?_replicate, if_pos m.char.utf8Size_pos]
      rw [List.flatMap_cons, List.map_append, map_escaped_octets, List.map_cons, placed,
        lookUpMarks_cons, hmark, Option.getD_some, hplace, ← List.append_assoc, ih]

/-- **The marks that the second pass finds are those of the characters.** -/
theorem decodeWithMarksInPasses_eq {unescape : List UInt8 → List UInt8} (h : Unescapes unescape)
    (raw : List Char) : decodeWithMarksInPasses unescape raw = decodeWithMarks raw := by
  rw [decodeWithMarksInPasses, decodeInPasses_eq h, decode_eq_map_char]
  cases hms : decodeWithMarks raw with
  | none => rfl
  | some ms =>
      have hoctets := octets?_of_spells (spells_of_decodeWithMarks hms)
      rw [Option.map_some, Option.map_some, (passes_of_octets? h hoctets).2]
      exact congrArg some (lookUpMarks_placed [] ms)

end Restconf.Text.Percent
