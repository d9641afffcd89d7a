import Mathlib.Data.List.Forall2
import Restconf.Proofs.Text.Utf8
import Restconf.Text.Percent

set_option autoImplicit false

/-! # How escaped text is spelled

`Percent.decodeWithMarks` reads bytes first and characters second. `Spells` describes the same
reading without bytes in between: an escaped text is a row of pieces, each a literal character other
than `%` or the escapes of all the UTF-8 bytes of one character. No character is made of literal and
escaped bytes together, since a literal character brings its own first byte.

The main statements are `decodeWithMarks_eq_some_iff` (the reader accepts exactly the spelled texts)
and `exists_spells_iff` (a text is spelled just if its escapes are complete and its bytes are
UTF-8). Whatever function writes the escapes (`Encodes`), its texts spell the characters that they
were made of (`Encodes.spells`). -/

namespace Restconf.Text.Percent

/-! ## Spelled texts -/

/-- The escapes of a run of bytes, with hexadecimal digits in either letter case. -/
inductive Escapes : List Char → List UInt8 → Prop
  | nil : Escapes [] []
  | cons {hi lo : Char} {x y : Nat} {piece : List Char} {bytes : List UInt8} :
      Hex.value? hi = some x → Hex.value? lo = some y → Escapes piece bytes →
      Escapes ('%' :: hi :: lo :: piece) (UInt8.ofNat (16 * x + y) :: bytes)

/-- One character of escaped text: itself, or the escapes of its UTF-8 bytes. -/
inductive SpellsChar : List Char → Marked → Prop
  | literal {c : Char} : c ≠ '%' → SpellsChar [c] ⟨c, false⟩
  | escaped {piece : List Char} {c : Char} :
      Escapes piece (String.utf8EncodeChar c) → SpellsChar piece ⟨c, true⟩

/-- An escaped text, character by character. -/
inductive Spells : List Char → List Marked → Prop
  | nil : Spells [] []
  | cons {piece rest : List Char} {m : Marked} {ms : List Marked} :
      SpellsChar piece m → Spells rest ms → Spells (piece ++ rest) (m :: ms)

/-! ## A spelled text is read -/

theorem octets?_of_escapes {piece : List Char} {bytes : List UInt8} (h : Escapes piece bytes)
    (rest : List Char) :
    octets? (piece ++ rest) = (octets? rest).map (bytes.map (⟨·, true⟩) ++ ·) := by
  induction h with
  | nil => simp
  | cons hhi hlo _ ih =>
      simp only [List.cons_append, octets?, if_true, hhi, hlo, ih, Option.map_map]
      rfl

theorem octets?_of_spellsChar {piece : List Char} {m : Marked} (h : SpellsChar piece m)
    (rest : List Char) :
    octets? (piece ++ rest) =
      (octets? rest).map ((String.utf8EncodeChar m.char).map (⟨·, m.escaped⟩) ++ ·) := by
  cases h with
  | literal hc =>
      rw [List.cons_append, List.nil_append, octets?.eq_def]
      simp [hc]
  | escaped he => exact octets?_of_escapes he rest

theorem map_byte_map (escaped : Bool) (bytes : List UInt8) :
    (bytes.map fun b => (⟨b, escaped⟩ : Octet)).map Octet.byte = bytes := by
  rw [List.map_map]
  exact List.map_id bytes

/-- The bytes of one character with one mark are read as that character, whatever follows. -/
theorem decodeBy_encodeChar_append (m : Marked) (os : List Octet) :
    Utf8.decodeBy Octet.byte ((String.utf8EncodeChar m.char).map (⟨·, m.escaped⟩) ++ os) =
      (Utf8.decodeBy Octet.byte os).map
        ((m.char, ⟨(String.utf8EncodeChar m.char).headD 0, m.escaped⟩) :: ·) := by
  cases hc : String.utf8EncodeChar m.char with
  | nil => exact absurd hc String.utf8EncodeChar_ne_nil
  | cons b bytes => exact Utf8.decodeBy_of_encodeChar (by simp [hc, Function.comp_def])

theorem decodeWithMarks_of_spellsChar {piece : List Char} {m : Marked} (h : SpellsChar piece m)
    (rest : List Char) :
    decodeWithMarks (piece ++ rest) = (decodeWithMarks rest).map (m :: ·) := by
  unfold decodeWithMarks
  rw [octets?_of_spellsChar h]
  cases octets? rest with
  | none => rfl
  | some os =>
      simp only [Option.map_some, Option.bind_some, decodeBy_encodeChar_append, Option.map_map]
      rfl

theorem decodeWithMarks_append {a : List Char} {x : List Marked} (h : Spells a x)
    (rest : List Char) :
    decodeWithMarks (a ++ rest) = (decodeWithMarks rest).map (x ++ ·) := by
  induction h with
  | nil => simp
  | cons hp _ ih =>
      rw [List.append_assoc, decodeWithMarks_of_spellsChar hp, ih, Option.map_map]
      rfl

theorem Spells.append {a b : List Char} {x y : List Marked} (ha : Spells a x) (hb : Spells b y) :
    Spells (a ++ b) (x ++ y) := by
  induction ha with
  | nil => exact hb
  | cons hp _ ih =>
      rw [List.append_assoc, List.cons_append]
      exact .cons hp ih

theorem decodeWithMarks_of_spells {raw : List Char} {ms : List Marked} (h : Spells raw ms) :
    decodeWithMarks raw = some ms := by
  have := decodeWithMarks_append h []
  simpa [decodeWithMarks, octets?, Utf8.decodeBy] using this

/-! ## What is read is spelled -/

/-- The two stages of the reader: bytes, and characters marked by their first byte. -/
theorem decodeWithMarks_eq_some_iff_octets {raw : List Char} {ms : List Marked} :
    decodeWithMarks raw = some ms ↔
      ∃ os out, octets? raw = some os ∧ Utf8.decodeBy Octet.byte os = some out ∧
        out.map (fun p => (⟨p.1, p.2.escaped⟩ : Marked)) = ms := by
  constructor
  · intro h
    obtain ⟨os, ho, hm⟩ := Option.bind_eq_some_iff.1 h
    obtain ⟨out, hd, rfl⟩ := Option.map_eq_some_iff.1 hm
    exact ⟨os, out, ho, hd, rfl⟩
  · rintro ⟨os, out, ho, hd, rfl⟩
    rw [decodeWithMarks, ho, Option.bind_some, hd, Option.map_some]

/-- The cases of a text whose escapes are complete: a literal character or an escape comes first. -/
theorem octets?_eq_some_cons {raw : List Char} {o : Octet} {os : List Octet}
    (h : octets? raw = some (o :: os)) :
    (∃ c rest os', raw = c :: rest ∧ c ≠ '%' ∧ octets? rest = some os' ∧
      o :: os = (String.utf8EncodeChar c).map (⟨·, false⟩) ++ os') ∨
    (∃ hi lo x y rest, raw = '%' :: hi :: lo :: rest ∧ Hex.value? hi = some x ∧
      Hex.value? lo = some y ∧ o = ⟨UInt8.ofNat (16 * x + y), true⟩ ∧ octets? rest = some os) := by
  rw [octets?.eq_def] at h
  cases raw with
  | nil => simp at h
  | cons c raw' =>
      simp only at h
      split at h
      · next hc =>
          subst hc
          split at h
          · next hi lo rest =>
              split at h
              · next x y hx hy =>
                  obtain ⟨os', ho, he⟩ := Option.map_eq_some_iff.1 h
                  simp only [List.cons.injEq] at he
                  obtain ⟨rfl, rfl⟩ := he
                  exact Or.inr ⟨hi, lo, x, y, rest, rfl, hx, hy, rfl, ho⟩
              · exact absurd h (by simp)
          · exact absurd h (by simp)
      · next hc =>
          obtain ⟨os', ho, he⟩ := Option.map_eq_some_iff.1 h
          exact Or.inl ⟨c, raw', os', rfl, hc, ho, he.symm⟩

theorem octets?_eq_some_nil {raw : List Char} (h : octets? raw = some []) : raw = [] := by
  rw [octets?.eq_def] at h
  cases raw with
  | nil => rfl
  | cons c raw' =>
      simp only at h
      repeat' split at h
      all_goals simp [String.utf8EncodeChar_ne_nil] at h

/-- Bytes that open no character were escaped, for a literal character would bring one that does. -/
theorem exists_escapes_of_octets? {more os : List Octet} {raw : List Char}
    (h : octets? raw = some (more ++ os)) (hm : ∀ o ∈ more, ¬ o.byte.IsUTF8FirstByte) :
    ∃ piece rest, raw = piece ++ rest ∧ Escapes piece (more.map Octet.byte) ∧
      octets? rest = some os := by
  induction more generalizing raw with
  | nil => exact ⟨[], raw, rfl, .nil, h⟩
  | cons o more ih =>
      rcases octets?_eq_some_cons h with
        ⟨c, _, os', _, _, _, he⟩ | ⟨hi, lo, x, y, rest, rfl, hx, hy, rfl, hr⟩
      · -- a literal character comes first, so the first byte would open it
        cases hc : String.utf8EncodeChar c with
        | nil => exact absurd hc String.utf8EncodeChar_ne_nil
        | cons b bytes =>
            rw [hc, List.map_cons, List.cons_append, List.cons.injEq] at he
            have hfirst : o.byte.IsUTF8FirstByte := by
              rw [he.1]
              exact Utf8.isFirst_encodeChar hc.symm
            exact absurd hfirst (hm o (by simp))
      · obtain ⟨piece, rest', rfl, hesc, hr'⟩ :=
          ih hr (fun o' ho' => hm o' (List.mem_cons_of_mem _ ho'))
        exact ⟨'%' :: hi :: lo :: piece, rest', rfl, .cons hx hy hesc, hr'⟩

/-- The first character of what is read is spelled by a piece at the front of the text. -/
theorem exists_spellsChar {raw : List Char} {m : Marked} {ms : List Marked}
    (h : decodeWithMarks raw = some (m :: ms)) :
    ∃ piece rest, raw = piece ++ rest ∧ SpellsChar piece m ∧ decodeWithMarks rest = some ms := by
  obtain ⟨os, out, ho, hd, hout⟩ := decodeWithMarks_eq_some_iff_octets.1 h
  obtain _ | ⟨⟨c, o⟩, out⟩ := out
  · simp at hout
  simp only [List.map_cons, List.cons.injEq] at hout
  obtain ⟨rfl, rfl⟩ := hout
  obtain ⟨more, os', rfl, hbytes, hmore⟩ := Utf8.decodeBy_eq_some_cons_iff.1 hd
  rcases octets?_eq_some_cons ho with
    ⟨d, rest, os₀, rfl, hlit, hr, he⟩ | ⟨hi, lo, x, y, rest, rfl, hx, hy, rfl, hr⟩
  · -- a literal character: both encodings start the same bytes, so it is the character read
    have hall := congrArg (List.map Octet.byte) he
    rw [← List.cons_append, List.map_append, hbytes, List.map_append, map_byte_map] at hall
    obtain ⟨rfl, -⟩ := Utf8.encodeChar_append_inj hall
    have hlen : (o :: more).length =
        ((String.utf8EncodeChar c).map (fun b => (⟨b, false⟩ : Octet))).length := by
      rw [List.length_map, ← hbytes, List.length_map]
    obtain ⟨ho, rfl⟩ := List.append_inj (he : (o :: more) ++ os' = _ ++ os₀) hlen
    have hmark : o.escaped = false := by
      obtain ⟨b, -, hb⟩ := List.mem_map.1 (ho ▸ List.mem_cons_self : o ∈ _)
      rw [← hb]
    refine ⟨[c], rest, rfl, ?_, decodeWithMarks_eq_some_iff_octets.2 ⟨_, _, hr, hmore, rfl⟩⟩
    rw [hmark]
    exact .literal hlit
  · -- an escape: the bytes that go on the character cannot come from a literal one
    have htail : ∀ o' ∈ more, ¬ o'.byte.IsUTF8FirstByte := fun o' ho' =>
      Utf8.not_isFirst_of_mem_tail hbytes (List.mem_map_of_mem ho')
    obtain ⟨piece, rest', rfl, hesc, hr'⟩ := exists_escapes_of_octets? hr htail
    refine ⟨'%' :: hi :: lo :: piece, rest', rfl, .escaped ?_,
      decodeWithMarks_eq_some_iff_octets.2 ⟨_, _, hr', hmore, rfl⟩⟩
    rw [← hbytes]
    exact .cons hx hy hesc

theorem spells_of_decodeWithMarks {raw : List Char} {ms : List Marked}
    (h : decodeWithMarks raw = some ms) : Spells raw ms := by
  induction ms generalizing raw with
  | nil =>
      obtain ⟨os, out, ho, hd, hout⟩ := decodeWithMarks_eq_some_iff_octets.1 h
      obtain rfl := List.map_eq_nil_iff.1 hout
      obtain rfl := Utf8.decodeBy_eq_some_nil_iff.1 hd
      rw [octets?_eq_some_nil ho]
      exact .nil
  | cons m ms ih =>
      obtain ⟨piece, rest, rfl, hp, hr⟩ := exists_spellsChar h
      exact .cons hp (ih hr)

/-- **The reader accepts exactly the spelled texts.** -/
theorem decodeWithMarks_eq_some_iff {raw : List Char} {ms : List Marked} :
    decodeWithMarks raw = some ms ↔ Spells raw ms :=
  ⟨spells_of_decodeWithMarks, decodeWithMarks_of_spells⟩

/-- A text spells one row of characters. -/
theorem Spells.unique {raw : List Char} {ms ms' : List Marked} (h : Spells raw ms)
    (h' : Spells raw ms') : ms = ms' :=
  Option.some.inj ((decodeWithMarks_of_spells h).symm.trans (decodeWithMarks_of_spells h'))

theorem Spells.nil_iff {raw : List Char} : Spells raw [] ↔ raw = [] := by
  constructor
  · intro h
    cases h
    rfl
  · rintro rfl
    exact .nil

/-! ## Which texts are spelled -/

/-- Every `%` is followed by two hexadecimal digits. -/
def EscapesComplete (raw : List Char) : Prop :=
  ∀ a b, raw = a ++ '%' :: b →
    ∃ hi lo rest, b = hi :: lo :: rest ∧ (Hex.value? hi).isSome ∧ (Hex.value? lo).isSome

/-- The bytes of a text: those of its literal characters, and one for each escape. -/
inductive SpellsBytes : List Char → List UInt8 → Prop
  | nil : SpellsBytes [] []
  | literal {c : Char} {rest : List Char} {bytes : List UInt8} :
      c ≠ '%' → SpellsBytes rest bytes → SpellsBytes (c :: rest) (String.utf8EncodeChar c ++ bytes)
  | escape {hi lo : Char} {x y : Nat} {rest : List Char} {bytes : List UInt8} :
      Hex.value? hi = some x → Hex.value? lo = some y → SpellsBytes rest bytes →
      SpellsBytes ('%' :: hi :: lo :: rest) (UInt8.ofNat (16 * x + y) :: bytes)

theorem spellsBytes_of_octets? {raw : List Char} {os : List Octet} (h : octets? raw = some os) :
    SpellsBytes raw (os.map Octet.byte) := by
  fun_induction octets? raw generalizing os with
  | case1 =>
      simp only [Option.some.injEq] at h
      subst h
      exact .nil
  | case2 hi lo rest x y hy hx ih =>
      obtain ⟨os', ho, rfl⟩ := Option.map_eq_some_iff.1 h
      exact .escape hx hy (ih ho)
  | case3 => exact absurd h (by simp)
  | case4 => exact absurd h (by simp)
  | case5 c rest hc ih =>
      obtain ⟨os', ho, rfl⟩ := Option.map_eq_some_iff.1 h
      rw [List.map_append, map_byte_map]
      exact .literal hc (ih ho)

theorem exists_octets?_of_spellsBytes {raw : List Char} {bytes : List UInt8}
    (h : SpellsBytes raw bytes) : ∃ os, octets? raw = some os ∧ os.map Octet.byte = bytes := by
  induction h with
  | nil => exact ⟨[], rfl, rfl⟩
  | literal hc _ ih =>
      obtain ⟨os, ho, rfl⟩ := ih
      refine ⟨_, by rw [octets?.eq_def]; simp only [if_neg hc, ho, Option.map_some]; rfl, ?_⟩
      rw [List.map_append, map_byte_map]
  | escape hx hy _ ih =>
      obtain ⟨os, ho, rfl⟩ := ih
      exact ⟨_, by simp only [octets?, if_true, hx, hy, ho, Option.map_some]; rfl, rfl⟩

theorem SpellsBytes.escapesComplete {raw : List Char} {bytes : List UInt8}
    (h : SpellsBytes raw bytes) : EscapesComplete raw := by
  have hhex : Hex.value? '%' = none := by decide
  intro a b hab
  induction h generalizing a with
  | nil => simp at hab
  | @literal c rest bytes hc _ ih =>
      cases a with
      | nil => exact absurd (List.cons.inj hab).1 hc
      | cons d a => exact ih a (List.cons.inj hab).2
  | @escape hi lo x y rest bytes hx hy _ ih =>
      -- the two digits of an escape are no percent signs themselves
      obtain _ | ⟨d₁, _ | ⟨d₂, _ | ⟨d₃, a⟩⟩⟩ := a
      · exact ⟨hi, lo, rest, (List.cons.inj hab).2.symm, by simp [hx], by simp [hy]⟩
      · simp only [List.cons_append, List.nil_append, List.cons.injEq] at hab
        rw [hab.2.1, hhex] at hx
        exact absurd hx (by simp)
      · simp only [List.cons_append, List.nil_append, List.cons.injEq] at hab
        rw [hab.2.2.1, hhex] at hy
        exact absurd hy (by simp)
      · simp only [List.cons_append, List.cons.injEq] at hab
        exact ih a hab.2.2.2

theorem EscapesComplete.of_append {a b : List Char} (h : EscapesComplete (a ++ b)) :
    EscapesComplete b := by
  intro x y hxy
  exact h (a ++ x) y (by rw [hxy, List.append_assoc])

theorem exists_spellsBytes_of_escapesComplete {raw : List Char} (h : EscapesComplete raw) :
    ∃ bytes, SpellsBytes raw bytes := by
  -- induction on the length, as an escape takes three characters at once
  induction hn : raw.length using Nat.strongRecOn generalizing raw with
  | _ n ih =>
      obtain _ | ⟨c, rest⟩ := raw
      · exact ⟨[], .nil⟩
      · by_cases hc : c = '%'
        · subst hc
          obtain ⟨hi, lo, rest', rfl, hhi, hlo⟩ := h [] rest rfl
          obtain ⟨x, hx⟩ := Option.isSome_iff_exists.1 hhi
          obtain ⟨y, hy⟩ := Option.isSome_iff_exists.1 hlo
          have hlt : rest'.length < n := by
            simp only [List.length_cons] at hn
            omega
          obtain ⟨bytes, hb⟩ := ih _ hlt (EscapesComplete.of_append (a := ['%', hi, lo]) h) rfl
          exact ⟨_, .escape hx hy hb⟩
        · have hlt : rest.length < n := by
            rw [← hn, List.length_cons]
            omega
          obtain ⟨bytes, hb⟩ := ih _ hlt (EscapesComplete.of_append (a := [c]) h) rfl
          exact ⟨_, .literal hc hb⟩

/-- **A text has bytes if and only if its escapes are complete.** -/
theorem exists_octets?_iff {raw : List Char} :
    (∃ os, octets? raw = some os) ↔ EscapesComplete raw := by
  constructor
  · rintro ⟨os, h⟩
    exact (spellsBytes_of_octets? h).escapesComplete
  · intro h
    obtain ⟨bytes, hb⟩ := exists_spellsBytes_of_escapesComplete h
    obtain ⟨os, ho, -⟩ := exists_octets?_of_spellsBytes hb
    exact ⟨os, ho⟩

theorem decode_eq_some_iff {raw cs : List Char} :
    decode raw = some cs ↔ SpellsBytes raw (Utf8.encode cs) := by
  constructor
  · intro h
    obtain ⟨os, ho, hd⟩ := Option.bind_eq_some_iff.1 h
    rw [Utf8.decode_eq_some_iff.1 hd]
    exact spellsBytes_of_octets? ho
  · intro h
    obtain ⟨os, ho, hbytes⟩ := exists_octets?_of_spellsBytes h
    rw [decode, ho, Option.bind_some, hbytes, Utf8.decode_eq_some_iff]

/-- **A text is spelled if and only if its escapes are complete and its bytes are UTF-8.** -/
theorem exists_spells_iff {raw : List Char} :
    (∃ ms, Spells raw ms) ↔
      EscapesComplete raw ∧ ∃ cs, SpellsBytes raw (Utf8.encode cs) := by
  constructor
  · rintro ⟨ms, h⟩
    have hd : decode raw = some (ms.map Marked.char) := by
      rw [decode_eq_map_char, decodeWithMarks_of_spells h, Option.map_some]
    have hb := decode_eq_some_iff.1 hd
    exact ⟨hb.escapesComplete, _, hb⟩
  · rintro ⟨-, cs, h⟩
    have hd := decode_eq_some_iff.2 h
    rw [decode_eq_map_char] at hd
    obtain ⟨ms, hm, -⟩ := Option.map_eq_some_iff.1 hd
    exact ⟨ms, spells_of_decodeWithMarks hm⟩

/-! ## Written text -/

/-- A character with the mark that it is read back with. -/
def EscapeSet.mark (set : EscapeSet) (c : Char) : Marked :=
  ⟨c, !set.keeps c⟩

/-- A function that writes each character that a set keeps as itself, and each other one as the
    escapes of its UTF-8 bytes. The letter case of the digits is left open. -/
structure Encodes (escape : EscapeSet → List Char → List Char) : Prop where
  nil (set : EscapeSet) : escape set [] = []
  kept {set : EscapeSet} {c : Char} (cs : List Char) : set.keeps c = true →
    escape set (c :: cs) = c :: escape set cs
  escaped {set : EscapeSet} {c : Char} (cs : List Char) : set.keeps c = false →
    ∃ piece, Escapes piece (String.utf8EncodeChar c) ∧
      escape set (c :: cs) = piece ++ escape set cs

theorem escapes_escapeBytes (bytes : List UInt8) : Escapes (bytes.flatMap escapeByte) bytes := by
  induction bytes with
  | nil => exact .nil
  | cons b bytes ih =>
      have hb : b.toNat < 256 := b.toNat_lt
      have hvalue : UInt8.ofNat (16 * (b.toNat / 16) + b.toNat % 16) = b := by
        rw [Nat.div_add_mod, UInt8.ofNat_toNat]
      have hpiece := Escapes.cons (Hex.value?_digitUpper (b.toNat / 16) (by omega))
        (Hex.value?_digitUpper (b.toNat % 16) (by omega)) ih
      rwa [hvalue] at hpiece

theorem encodes_encode : Encodes encode where
  nil _ := rfl
  kept _ hk := by rw [encode_cons, escapeChar, if_pos hk, List.singleton_append]
  escaped _ hk := ⟨_, escapes_escapeBytes _, by rw [encode_cons, escapeChar, hk]; rfl⟩

/-- Written text spells the characters it was made of, and exactly the escaped ones are marked. -/
theorem Encodes.spells {escape : EscapeSet → List Char → List Char} (h : Encodes escape)
    {set : EscapeSet} (hpercent : '%' ∈ set.members) (cs : List Char) :
    Spells (escape set cs) (cs.map set.mark) := by
  induction cs with
  | nil =>
      rw [h.nil]
      exact .nil
  | cons c cs ih =>
      rw [List.map_cons, EscapeSet.mark]
      cases hk : set.keeps c with
      | true =>
          have hc : c ≠ '%' := by
            rintro rfl
            simp [EscapeSet.keeps, hpercent] at hk
          rw [h.kept cs hk]
          exact .cons (.literal hc) ih
      | false =>
          obtain ⟨piece, hpiece, hescape⟩ := h.escaped cs hk
          rw [hescape]
          exact .cons (.escaped hpiece) ih

theorem spells_encode {set : EscapeSet} (h : '%' ∈ set.members) (cs : List Char) :
    Spells (encode set cs) (cs.map set.mark) :=
  encodes_encode.spells h cs

theorem decode_encode {set : EscapeSet} (h : '%' ∈ set.members) (cs : List Char) :
    decode (encode set cs) = some cs := by
  rw [decode_eq_map_char, decodeWithMarks_of_spells (spells_encode h cs)]
  simp [EscapeSet.mark, Function.comp_def]

theorem Spells.intercalate {sep : List Char} {sepMs : List Marked} (hsep : Spells sep sepMs)
    {raws : List (List Char)} {rows : List (List Marked)} (h : List.Forall₂ Spells raws rows) :
    Spells (sep.intercalate raws) (sepMs.intercalate rows) := by
  induction h with
  | nil => exact .nil
  | @cons raw row raws rows hraw hraws ih =>
      cases hraws with
      | nil => simpa using hraw
      | cons _ _ =>
          rw [List.intercalate_cons_cons, List.intercalate_cons_cons]
          exact (hraw.append hsep).append ih

theorem mem_escapeByte {b : UInt8} {c : Char} (h : c ∈ escapeByte b) :
    c = '%' ∨ ∃ n, n < 16 ∧ c = Hex.digitUpper n := by
  have hb : b.toNat < 256 := b.toNat_lt
  simp only [escapeByte, List.mem_cons, List.not_mem_nil, or_false] at h
  rcases h with rfl | rfl | rfl
  · exact Or.inl rfl
  · exact Or.inr ⟨_, by omega, rfl⟩
  · exact Or.inr ⟨_, Nat.mod_lt _ (by decide), rfl⟩

/-- A written text holds kept characters, percent signs and hexadecimal digits. -/
theorem mem_encode {set : EscapeSet} {cs : List Char} {c : Char} (h : c ∈ encode set cs) :
    set.keeps c = true ∨ c = '%' ∨ ∃ n, n < 16 ∧ c = Hex.digitUpper n := by
  obtain ⟨d, -, hd⟩ := List.mem_flatMap.1 h
  unfold escapeChar at hd
  split at hd
  · next hk =>
      obtain rfl := List.mem_singleton.1 hd
      exact Or.inl hk
  · obtain ⟨b, -, hb⟩ := List.mem_flatMap.1 hd
    exact Or.inr (mem_escapeByte hb)

end Restconf.Text.Percent
