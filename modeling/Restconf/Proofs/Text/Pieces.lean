import Restconf.Proofs.Text.Passes

set_option autoImplicit false

/-! # Escaped text, piece by piece

Escaped text that is read is a row of pieces, each a literal character or a group of escapes that
spells all the bytes of one character. `joined_injective` says that a text is such a row in one way
only, so that it makes sense to ask of a character whether it was escaped.
`exists_pieces_decodeWithMarks` says that the reader of marks answers just this, and so does the one
that finds the marks in a pass of their own. -/

namespace Restconf.Text.Percent

/-! ## Pieces -/

/-- A piece of escaped text: a literal character, or the escapes of the bytes of one character. -/
inductive Piece where
  | literal (c : Char) (h : c ≠ '%')
  | group (c : Char) (escapes : List Char) (h : Escapes escapes (String.utf8EncodeChar c))

namespace Piece

/-- The piece as it is written. -/
def text : Piece → List Char
  | literal c _ => [c]
  | group _ escapes _ => escapes

/-- The character that the piece stands for. -/
def char : Piece → Char
  | literal c _ => c
  | group c _ _ => c

/-- The piece is a group of escapes. -/
def isGroup : Piece → Bool
  | literal _ _ => false
  | group _ _ _ => true

/-- The character, escaped if it comes from a group. -/
def marked (p : Piece) : Marked :=
  ⟨p.char, p.isGroup⟩

/-- The text that the pieces make up. -/
def joined (pieces : List Piece) : List Char :=
  pieces.flatMap text

theorem joined_cons (p : Piece) (pieces : List Piece) :
    joined (p :: pieces) = p.text ++ joined pieces := rfl

/-! ## Spelled texts are rows of pieces -/

theorem spellsChar_marked (p : Piece) : SpellsChar p.text p.marked := by
  cases p with
  | literal c h => exact .literal h
  | group c escapes h => exact .escaped h

theorem exists_of_spellsChar {piece : List Char} {m : Marked} (h : SpellsChar piece m) :
    ∃ p : Piece, p.text = piece ∧ p.marked = m := by
  cases h with
  | @literal c hc => exact ⟨.literal c hc, rfl, rfl⟩
  | @escaped piece c he => exact ⟨.group c piece he, rfl, rfl⟩

/-- **A text spells marked characters if and only if it is a row of pieces that stand for them.** -/
theorem spells_iff_exists_joined {raw : List Char} {ms : List Marked} :
    Spells raw ms ↔ ∃ pieces : List Piece, joined pieces = raw ∧ pieces.map marked = ms := by
  constructor
  · intro h
    induction h with
    | nil => exact ⟨[], rfl, rfl⟩
    | cons hp _ ih =>
        obtain ⟨p, rfl, rfl⟩ := exists_of_spellsChar hp
        obtain ⟨pieces, rfl, rfl⟩ := ih
        exact ⟨p :: pieces, rfl, rfl⟩
  · rintro ⟨pieces, rfl, rfl⟩
    induction pieces with
    | nil => exact .nil
    | cons p pieces ih => exact .cons p.spellsChar_marked ih

/-! ## There is one row of pieces -/

theorem length_of_escapes {piece : List Char} {bytes : List UInt8} (h : Escapes piece bytes) :
    piece.length = 3 * bytes.length := by
  induction h with
  | nil => rfl
  | cons _ _ _ ih =>
      simp only [List.length_cons, ih]
      omega

/-- A piece at the front of a text is known by what it stands for. -/
theorem append_inj_of_marked {p p' : Piece} (h : p.marked = p'.marked) {x x' : List Char}
    (ht : p.text ++ x = p'.text ++ x') : p = p' ∧ x = x' := by
  have hkind : p.isGroup = p'.isGroup := congrArg Marked.escaped h
  cases p with
  | literal c hc =>
      cases p' with
      | group c' escapes' he' => exact absurd hkind Bool.false_ne_true
      | literal c' hc' =>
          obtain ⟨rfl, rfl⟩ := List.cons.inj ht
          exact ⟨rfl, rfl⟩
  | group c escapes he =>
      cases p' with
      | literal c' hc' => exact absurd hkind.symm Bool.false_ne_true
      | group c' escapes' he' =>
          -- groups of one character are equally long, whatever the letter case of their digits
          obtain rfl : c = c' := congrArg Marked.char h
          have hlength := (length_of_escapes he).trans (length_of_escapes he').symm
          obtain ⟨rfl, rfl⟩ := List.append_inj (ht : escapes ++ x = escapes' ++ x') hlength
          exact ⟨rfl, rfl⟩

theorem eq_of_map_marked_joined {pieces pieces' : List Piece}
    (h : pieces.map marked = pieces'.map marked) (hj : joined pieces = joined pieces') :
    pieces = pieces' := by
  induction pieces generalizing pieces' with
  | nil => exact (List.map_eq_nil_iff.1 h.symm).symm
  | cons p pieces ih =>
      obtain ⟨p', pieces', rfl, hp, hps⟩ := List.map_eq_cons_iff.1 h.symm
      rw [joined_cons, joined_cons] at hj
      obtain ⟨rfl, hrest⟩ := append_inj_of_marked hp.symm hj
      rw [ih hps.symm hrest]

/-- **A text falls into pieces in one way only.** -/
theorem joined_injective : Function.Injective joined := by
  intro pieces pieces' hj
  have hs : Spells (joined pieces) (pieces.map marked) :=
    spells_iff_exists_joined.2 ⟨pieces, rfl, rfl⟩
  have hs' : Spells (joined pieces) (pieces'.map marked) :=
    spells_iff_exists_joined.2 ⟨pieces', hj.symm, rfl⟩
  exact eq_of_map_marked_joined (hs.unique hs') hj

/-! ## The bytes of a row of pieces -/

/-- The bytes of a piece all have its mark. -/
theorem octets?_joined (pieces : List Piece) :
    octets? (joined pieces) = some (pieces.flatMap fun p => p.marked.octets) := by
  have hs : Spells (joined pieces) (pieces.map marked) :=
    spells_iff_exists_joined.2 ⟨pieces, rfl, rfl⟩
  rw [octets?_of_spells hs, List.flatMap_map]

theorem unescape_joined {unescape : List UInt8 → List UInt8} (h : Unescapes unescape)
    (pieces : List Piece) :
    unescape (Utf8.encode (joined pieces)) = Utf8.encode (pieces.map char) := by
  rw [(passes_of_octets? h (octets?_joined pieces)).1, List.map_flatMap, Utf8.encode,
    List.flatMap_map]
  exact congrArg (List.flatMap · pieces) (funext fun p => map_byte_map p.isGroup _)

/-- The marks of the bytes are one run for each piece. -/
theorem byteMarks_joined (pieces : List Piece) :
    byteMarks (Utf8.encode (joined pieces)) =
      pieces.flatMap fun p => List.replicate p.char.utf8Size p.isGroup := by
  rw [(passes_of_octets? unescapes_unescape (octets?_joined pieces)).2, List.map_flatMap]
  exact congrArg (List.flatMap · pieces) (funext fun p => map_escaped_octets p.marked)

end Piece

/-! ## The readers -/

theorem isSome_decodeWithMarks_iff (raw : List Char) :
    (decodeWithMarks raw).isSome ↔ ∃ pieces, Piece.joined pieces = raw := by
  rw [Option.isSome_iff_exists]
  constructor
  · rintro ⟨ms, h⟩
    obtain ⟨pieces, hj, -⟩ := Piece.spells_iff_exists_joined.1 (spells_of_decodeWithMarks h)
    exact ⟨pieces, hj⟩
  · rintro ⟨pieces, hj⟩
    exact ⟨_, decodeWithMarks_of_spells (Piece.spells_iff_exists_joined.2 ⟨pieces, hj, rfl⟩)⟩

/-- **Both readers accept the texts that are rows of pieces, and read the characters that the pieces
    stand for; a text is one row of pieces only, and a character is marked just if its piece is a
    group of escapes. No character has literal and escaped bytes, since the marks of the bytes are a
    run for each character. All this holds of the readers that take one step after the other,
    whatever function replaces the escapes; the first step lets a text through just if its escapes
    are complete.** -/
theorem exists_pieces_decodeWithMarks (unescape : List UInt8 → List UInt8)
    (h : Unescapes unescape) (s : String) :
    decodeInPasses unescape s.toList = decode s.toList ∧
    decodeWithMarksInPasses unescape s.toList = decodeWithMarks s.toList ∧
    (isWellFormed (Utf8.encode s.toList) = true ↔ EscapesComplete s.toList) ∧
    ((decodeWithMarks s.toList).isSome ↔ (decode s.toList).isSome) ∧
    ((decodeWithMarks s.toList).isSome ↔ ∃ pieces, Piece.joined pieces = s.toList) ∧
    ∀ ms, decodeWithMarks s.toList = some ms →
      decode s.toList = some (ms.map Marked.char) ∧
      ∃ pieces, Piece.joined pieces = s.toList ∧
        (∀ pieces', Piece.joined pieces' = s.toList → pieces' = pieces) ∧
        ms = pieces.map Piece.marked ∧
        unescape (Utf8.encode s.toList) = Utf8.encode (pieces.map Piece.char) ∧
        byteMarks (Utf8.encode s.toList) =
          pieces.flatMap fun p => List.replicate p.char.utf8Size p.isGroup := by
  have hchars := decode_eq_map_char s.toList
  refine ⟨decodeInPasses_eq h _, decodeWithMarksInPasses_eq h _, isWellFormed_encode_iff _, ?_,
    isSome_decodeWithMarks_iff _, ?_⟩
  · rw [hchars, Option.isSome_map]
  · intro ms hms
    rw [hms] at hchars
    obtain ⟨pieces, hj, hmarked⟩ :=
      Piece.spells_iff_exists_joined.1 (spells_of_decodeWithMarks hms)
    refine ⟨hchars, pieces, hj, ?_, hmarked.symm, ?_, ?_⟩
    · intro pieces' hj'
      exact Piece.joined_injective (hj'.trans hj.symm)
    · rw [← hj, Piece.unescape_joined h]
    · rw [← hj, Piece.byteMarks_joined]

/-- An escaped comma beside a literal one, and an escaped letter of two bytes beside a literal
    one. -/
theorem exists_pieces_decodeWithMarks_twoBytes :
    Unescapes unescape ∧ ∃ pieces,
      Piece.joined pieces = "%2C,%c3%A9\u00e9".toList ∧
      (∀ pieces', Piece.joined pieces' = "%2C,%c3%A9\u00e9".toList → pieces' = pieces) ∧
      pieces.map Piece.marked =
        [⟨',', true⟩, ⟨',', false⟩, ⟨'\u00e9', true⟩, ⟨'\u00e9', false⟩] ∧
      byteMarks (Utf8.encode "%2C,%c3%A9\u00e9".toList) =
        [true, false, true, true, false, false] := by
  have hread : decodeWithMarks "%2C,%c3%A9\u00e9".toList =
      some [⟨',', true⟩, ⟨',', false⟩, ⟨'\u00e9', true⟩, ⟨'\u00e9', false⟩] := by decide +kernel
  obtain ⟨-, -, -, -, -, hpieces⟩ :=
    exists_pieces_decodeWithMarks unescape unescapes_unescape "%2C,%c3%A9\u00e9"
  obtain ⟨-, pieces, hj, hunique, hmarked, -, -⟩ := hpieces _ hread
  exact ⟨unescapes_unescape, pieces, hj, hunique, hmarked.symm, by decide +kernel⟩

end Restconf.Text.Percent
