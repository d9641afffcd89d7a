import Restconf.Proofs.Key.RoundTrip

set_option autoImplicit false

/-! # Written keys with more text after them

A key is written without a look at what comes after it. `readToken_write_append` says that none is
needed: in front of any text that can be decoded and is empty or starts with a comma, a written key
is read as its text, in the quotes that it was written in, and reading goes on after the comma. How
the escapes are written is left open (`Percent.Encodes`): kept characters stay as they are, and all
bytes of other characters are escaped. -/

namespace Restconf.Key

open Text.Percent (EscapeSet Marked Spells SpellsChar Encodes decodeWithMarks encode encodes_encode)

/-- A text that is empty or starts with a comma is what can follow a key. -/
theorem following_tail? {tail : List Char} {ms : List Marked} (h : decodeWithMarks tail = some ms)
    (hnext : tail = [] ∨ ∃ more, tail = ',' :: more) : following ms.tail? = ms := by
  rcases hnext with rfl | ⟨more, rfl⟩
  · obtain rfl := (Text.Percent.spells_of_decodeWithMarks h).unique .nil
    rfl
  · -- the comma is not escaped, so it divides
    have hcomma : SpellsChar [','] comma := .literal (by decide)
    rw [← List.singleton_append, Text.Percent.decodeWithMarks_of_spellsChar hcomma] at h
    obtain ⟨rest, -, rfl⟩ := Option.map_eq_some_iff.1 h
    rfl

/-- A written key is decoded and read apart from what follows it. -/
theorem exists_readToken_append {raw tail text : List Char} {part ms : List Marked}
    {q : Option QuoteMark} (hs : Spells raw part) (hw : Written part text q)
    (htail : decodeWithMarks tail = some ms) (hnext : tail = [] ∨ ∃ more, tail = ',' :: more)
    (total : Nat) :
    ∃ key, decodeWithMarks raw = some key ∧ decodeWithMarks (raw ++ tail) = some (key ++ ms) ∧
      readToken total (key ++ ms) = .ok ⟨text, q, ms.tail?⟩ := by
  refine ⟨part, Text.Percent.decodeWithMarks_of_spells hs, ?_, ?_⟩
  · rw [Text.Percent.decodeWithMarks_append hs, htail, Option.map_some]
  · have hread := readToken_append_following hw total ms.tail?
    rwa [following_tail? htail hnext] at hread

/-- **A text that is written in quotes, or bare if it opens with no quote mark, is read back in
    front of every text that can be decoded and is empty or starts with a comma, and reading goes on
    after the comma. This holds whatever function writes the escapes, and `encode` is one that
    does.** -/
theorem readToken_write_append (escape : EscapeSet → List Char → List Char) (h : Encodes escape)
    (text tail : String) (ms : List Marked)
    (htail : decodeWithMarks tail.toList = some ms)
    (hnext : tail = "" ∨ ∃ more, tail = "," ++ more) (total : Nat) :
    (∀ q : QuoteMark, ∃ key,
      decodeWithMarks (q.writeWith escape text.toList) = some key ∧
      decodeWithMarks (q.writeWith escape text.toList ++ tail.toList) = some (key ++ ms) ∧
      readToken total (key ++ ms) = .ok ⟨text.toList, some q, ms.tail?⟩) ∧
    (opensQuoted text.toList = false → ∃ key,
      decodeWithMarks (escape .key text.toList) = some key ∧
      decodeWithMarks (escape .key text.toList ++ tail.toList) = some (key ++ ms) ∧
      readToken total (key ++ ms) = .ok ⟨text.toList, none, ms.tail?⟩) ∧
    Encodes encode ∧ ∀ q : QuoteMark, q.writeWith encode = q.write := by
  have hstart : tail.toList = [] ∨ ∃ more, tail.toList = ',' :: more := by
    rcases hnext with rfl | ⟨more, rfl⟩
    · exact Or.inl rfl
    · exact Or.inr ⟨more.toList, by rw [String.toList_append]; rfl⟩
  refine ⟨?_, ?_, encodes_encode, QuoteMark.writeWith_encode⟩
  · intro q
    obtain ⟨part, hs, hw⟩ := exists_spells_writeWith h q text.toList
    exact exists_readToken_append hs hw htail hstart total
  · intro hopens
    obtain ⟨part, hs, hw⟩ := exists_spells_bare h hopens
    exact exists_readToken_append hs hw htail hstart total

/-- A text with a quote mark, a backslash, a comma and a percent sign, in front of a key that starts
    with an escaped comma. -/
theorem readToken_write_append_guardedText :
    Encodes encode ∧
    QuoteMark.single.write "b'\\,%".toList = "'b\\'\\\\,%25'".toList ∧
    encode .key "b'\\,%".toList = "b'\\%2C%25".toList ∧
    decodeWithMarks ",%2C'".toList = some [⟨',', false⟩, ⟨',', true⟩, ⟨'\'', false⟩] ∧
    (∃ key, decodeWithMarks "'b\\'\\\\,%25',%2C'".toList =
        some (key ++ [⟨',', false⟩, ⟨',', true⟩, ⟨'\'', false⟩]) ∧
      readToken 11 (key ++ [⟨',', false⟩, ⟨',', true⟩, ⟨'\'', false⟩]) =
        .ok ⟨"b'\\,%".toList, some .single, some [⟨',', true⟩, ⟨'\'', false⟩]⟩) ∧
    opensQuoted "b'\\,%".toList = false ∧
    ∃ key, decodeWithMarks "b'\\%2C%25,%2C'".toList =
        some (key ++ [⟨',', false⟩, ⟨',', true⟩, ⟨'\'', false⟩]) ∧
      readToken 8 (key ++ [⟨',', false⟩, ⟨',', true⟩, ⟨'\'', false⟩]) =
        .ok ⟨"b'\\,%".toList, none, some [⟨',', true⟩, ⟨'\'', false⟩]⟩ := by
  have htail : decodeWithMarks ",%2C'".toList =
      some [⟨',', false⟩, ⟨',', true⟩, ⟨'\'', false⟩] := by decide
  have hnext : ",%2C'" = "" ∨ ∃ more, ",%2C'" = "," ++ more := Or.inr ⟨"%2C'", by decide⟩
  have hopens : opensQuoted "b'\\,%".toList = false := by decide
  obtain ⟨hquotes, -, -, -⟩ :=
    readToken_write_append encode encodes_encode "b'\\,%" ",%2C'" _ htail hnext 11
  obtain ⟨-, hbare, -, -⟩ :=
    readToken_write_append encode encodes_encode "b'\\,%" ",%2C'" _ htail hnext 8
  obtain ⟨quoted, -, hquoted, hread⟩ := hquotes .single
  obtain ⟨bare, -, hbare, hread'⟩ := hbare hopens
  exact ⟨encodes_encode, by decide, by decide, htail, ⟨quoted, hquoted, hread⟩,
    hopens, bare, hbare, hread'⟩

end Restconf.Key
