import Restconf.Key.Reader
import Restconf.Proofs.Key.Grammar
import Restconf.Proofs.Text.Cut

set_option autoImplicit false

/-! # Written keys read back

Keys are written in their own quotes, or bare, or in double quotes where a bare text would be read
as something else. `readAll_renderAll_eq_ok_iff` says that what is written is read as the same
texts, in the quotes that were written and with the values of the texts, and as nothing else. Keys
that were read need no other quotes than their own (`shownAll_of_readAll`), so writing them and
reading them gives them back (`readAll_renderAll_of_readAll`). -/

namespace Restconf

open Text.Percent (EscapeSet Marked Spells Encodes encode encodes_encode)

/-- The text in quotes, with what stands between them written by a function of one's own. -/
def QuoteMark.writeWith (escape : EscapeSet → List Char → List Char) (q : QuoteMark)
    (text : List Char) : List Char :=
  q.char :: escape .quotedKey (text.flatMap q.guardChar) ++ [q.char]

theorem QuoteMark.writeWith_encode (q : QuoteMark) : q.writeWith encode = q.write := rfl

namespace Key

/-- The key in the quotes that it is written in. -/
def shown (forced : Bool) (k : Key) : Key :=
  if k.quote.isNone ∧ (forced ∨ opensQuoted k.text.toList) then
    { k with quote := some .double }
  else k

@[simp] theorem shown_text (forced : Bool) (k : Key) : (k.shown forced).text = k.text := by
  unfold shown
  split <;> rfl

@[simp] theorem shown_value (forced : Bool) (k : Key) : (k.shown forced).value = k.value := by
  unfold shown
  split <;> rfl

/-- The keys of an entry in the quotes that they are written in. -/
def shownAll (keys : List Key) : List Key :=
  keys.map (shown (loneEmpty keys))

/-! ## One key -/

/-- A text with its quotes and backslashes guarded is a quoted text, whatever is escaped on top. -/
theorem quotedText_guarded {q : QuoteMark} {mark : Char → Marked}
    (hmark : ∀ c, (mark c).char = c) (text : List Char) :
    QuotedText q ((text.flatMap q.guardChar).map mark) text := by
  induction text with
  | nil => exact .nil
  | cons c text ih =>
      rw [List.flatMap_cons, List.map_append]
      by_cases hc : c = q.char ∨ c = '\\'
      · have h := QuotedText.guarded (n := mark c) (hmark '\\') ih
        rw [hmark c] at h
        rw [QuoteMark.guardChar, if_pos hc]
        exact h
      · rw [not_or] at hc
        have h := QuotedText.plain (m := mark c) (by rw [hmark]; exact hc.2)
          (by rw [hmark]; exact hc.1) ih
        rw [hmark c] at h
        rw [QuoteMark.guardChar, if_neg (not_or.2 hc)]
        exact h

/-- The quote marks themselves need no escape. -/
theorem write_eq_encode (q : QuoteMark) (text : List Char) :
    q.write text = encode .quotedKey (q.char :: text.flatMap q.guardChar ++ [q.char]) := by
  have hq : encode .quotedKey [q.char] = [q.char] := by
    cases q <;> decide
  rw [Text.Percent.encode_append, hq, ← List.singleton_append, Text.Percent.encode_append, hq]
  rfl

variable {escape : EscapeSet → List Char → List Char}

/-- A text in quotes is written as a key with these quotes. -/
theorem exists_spells_writeWith (h : Encodes escape) (q : QuoteMark) (text : List Char) :
    ∃ part, Spells (q.writeWith escape text) part ∧ Written part text (some q) := by
  have hquote : Spells [q.char] [⟨q.char, false⟩] :=
    .cons (.literal (by cases q <;> decide)) .nil
  exact ⟨_, (hquote.append (h.spells (by decide) _)).append hquote,
    .quoted rfl (quotedText_guarded (fun _ => rfl) text) rfl⟩

theorem exists_spells_write (q : QuoteMark) (text : List Char) :
    ∃ part, Spells (q.write text) part ∧ Written part text (some q) :=
  exists_spells_writeWith encodes_encode q text

/-- A text that opens with no quote mark is written as a key without quotes. -/
theorem exists_spells_bare (h : Encodes escape) {text : List Char}
    (hopens : opensQuoted text = false) :
    ∃ part, Spells (escape .key text) part ∧ Written part text none := by
  have htext : (text.map EscapeSet.key.mark).map Marked.char = text := by
    simp [EscapeSet.mark, Function.comp_def]
  refine ⟨_, h.spells (by decide) text, ?_⟩
  have hw : Written (text.map EscapeSet.key.mark) ((text.map EscapeSet.key.mark).map Marked.char)
      none := by
    refine .bare ?_ ?_
    · intro m hm
      cases text with
      | nil => exact absurd hm (by simp)
      | cons c text =>
          obtain rfl : EscapeSet.key.mark c = m := by simpa using hm
          exact ofChar?_eq_none_iff.1 (by simpa [opensQuoted, EscapeSet.mark] using hopens)
    · -- a comma of the text is always escaped
      intro hcomma
      obtain ⟨c, -, hc⟩ := List.mem_map.1 hcomma
      obtain rfl : c = ',' := congrArg Marked.char hc
      exact absurd hc (by decide)
  rwa [htext] at hw

/-- A key is written in the quotes that it is shown in. -/
theorem exists_spells_render (forced : Bool) (k : Key) :
    ∃ part, Spells (k.render forced) part ∧ Written part k.text.toList (k.shown forced).quote := by
  unfold render shown
  cases hq : k.quote with
  | some q => simpa [hq] using exists_spells_write q k.text.toList
  | none =>
      by_cases hf : forced = true ∨ opensQuoted k.text.toList = true
      · simpa [hf] using exists_spells_write .double k.text.toList
      · simp only [not_or, Bool.not_eq_true] at hf
        simpa [hf, hq] using exists_spells_bare encodes_encode hf.2

/-! ## All keys of an entry -/

/-- Keys whose values are those of their texts. -/
def Valued (keys : List Key) : Prop :=
  ∀ k ∈ keys, KeyValue.ofText k.text = .ok k.value

/-- `k'` is `k` with the value of its text, whatever value `k` itself has. -/
structure ReadsAs (k k' : Key) : Prop where
  text : k'.text = k.text
  quote : k'.quote = k.quote
  value : KeyValue.ofText k.text = .ok k'.value

theorem exists_written_render (forced : Bool) (keys : List Key) :
    ∃ parts, List.Forall₂ Spells (keys.map (render forced)) parts ∧
      List.Forall₂ (fun part k => Written part k.text.toList k.quote) parts
        (keys.map (shown forced)) := by
  induction keys with
  | nil => exact ⟨[], .nil, .nil⟩
  | cons k keys ih =>
      obtain ⟨part, hs, hw⟩ := exists_spells_render forced k
      obtain ⟨parts, hss, hws⟩ := ih
      refine ⟨part :: parts, .cons hs hss, .cons ?_ hws⟩
      rw [shown_text]
      exact hw

/-- Written keys are spelled as what they read as. -/
theorem spelled_of_readsAs {parts : List (List Marked)} {keys keys' : List Key}
    (h : List.Forall₂ (fun part k => Written part k.text.toList k.quote) parts keys)
    (h' : List.Forall₂ ReadsAs keys keys') : List.Forall₂ Spelled parts keys' := by
  induction h generalizing keys' with
  | nil =>
      cases h'
      exact .nil
  | cons hw _ ih =>
      cases h' with
      | cons hk hks =>
          refine .cons ⟨?_, ?_⟩ (ih hks)
          · rw [hk.text, hk.quote]
            exact hw
          · rw [hk.text]
            exact hk.value

/-- Written keys are spelled as nothing else, since a row of keys can be divided in one way only. -/
theorem readsAs_of_spelled {parts parts' : List (List Marked)} {keys keys' : List Key}
    (h : List.Forall₂ (fun part k => Written part k.text.toList k.quote) parts keys)
    (h' : List.Forall₂ Spelled parts' keys') (hne : parts ≠ []) (hne' : parts' ≠ [])
    (he : [comma].intercalate parts = [comma].intercalate parts') :
    List.Forall₂ ReadsAs keys keys' := by
  have hw : List.Forall₂ (fun p t => Written p t.1 t.2) parts
      (keys.map fun k => (k.text.toList, k.quote)) := by
    rw [List.forall₂_map_right_iff]
    exact h
  have hw' : List.Forall₂ (fun p t => Written p t.1 t.2) parts'
      (keys'.map fun k => (k.text.toList, k.quote)) := by
    rw [List.forall₂_map_right_iff]
    exact h'.imp fun _ _ hk => hk.1
  obtain ⟨rfl, htokens⟩ := division_unique hw hw' hne hne' he
  have hvalues : ∀ k' ∈ keys', KeyValue.ofText k'.text = .ok k'.value := by
    intro k' hk'
    obtain ⟨part, -, hv⟩ := exists_spelled_of_mem h' hk'
    exact hv
  -- the texts and quotes are the same in both rows, and the values are those of the texts
  replace htokens := htokens.symm
  rw [← List.forall₂_eq_eq_eq, List.forall₂_map_left_iff, List.forall₂_map_right_iff] at htokens
  refine List.Forall₂.flip (((List.forall₂_and_left _ _).2 ⟨hvalues, htokens⟩).imp ?_)
  rintro k' k ⟨hv, hk⟩
  obtain ⟨htext, hquote⟩ := Prod.mk.inj hk
  rw [String.toList_inj] at htext
  refine ⟨htext, hquote, ?_⟩
  rw [← htext]
  exact hv

theorem render_ne_nil {forced : Bool} {k : Key} (h : forced = true ∨ k.text ≠ "") :
    k.render forced ≠ [] := by
  obtain ⟨part, hs, hw⟩ := exists_spells_render forced k
  intro hnil
  rw [hnil] at hs
  -- nothing spells nothing, so the key would be empty and without quotes
  obtain rfl := hs.unique .nil
  obtain ⟨htext, hquote⟩ := hw.of_nil
  rw [String.toList_eq_nil_iff] at htext
  have hforced : forced = true := h.resolve_right (not_not_intro htext)
  unfold shown at hquote
  split at hquote
  · exact absurd hquote (by simp)
  · next hn => exact hn ⟨by simp [hquote], Or.inl hforced⟩

/-- No key list is written as the empty text. -/
theorem renderAll_ne_nil {keys : List Key} (h : keys ≠ []) : renderAll keys ≠ [] := by
  obtain _ | ⟨k, _ | ⟨k', keys⟩⟩ := keys
  · exact absurd rfl h
  · have hk : loneEmpty [k] = true ∨ k.text ≠ "" := by
      by_cases ht : k.text = ""
      · exact Or.inl (by simp [loneEmpty, ht])
      · exact Or.inr ht
    simpa [renderAll] using render_ne_nil hk
  · rw [renderAll, List.map_cons, List.map_cons, List.intercalate_cons_cons]
    simp

/-- **Written keys are read as what they are shown as, with the values of their texts.** -/
theorem readAll_renderAll_eq_ok_iff {keys keys' : List Key} (hne : keys ≠ []) :
    readAll (renderAll keys) = .ok keys' ↔ List.Forall₂ ReadsAs (shownAll keys) keys' := by
  obtain ⟨parts, hss, hws⟩ := exists_written_render (loneEmpty keys) keys
  have hsep : Spells [','] [comma] := Spells.cons (.literal (by decide)) .nil
  have hspells : Spells (renderAll keys) ([comma].intercalate parts) := hsep.intercalate hss
  have hparts : parts ≠ [] := by
    rintro rfl
    rw [List.forall₂_nil_right_iff] at hss
    exact hne (List.map_eq_nil_iff.1 hss)
  constructor
  · intro h
    obtain ⟨-, parts', hne', hspells', hkeys'⟩ := readAll_eq_ok_iff.1 h
    exact readsAs_of_spelled hws hkeys' hparts hne' (hspells.unique hspells')
  · intro h
    exact readAll_eq_ok_iff.2
      ⟨renderAll_ne_nil hne, parts, hparts, hspells, spelled_of_readsAs hws h⟩

/-- **Written keys are read with their texts and values, in the quotes that they were written
    in.** -/
theorem readAll_renderAll {keys : List Key} (hne : keys ≠ []) (h : Valued keys) :
    readAll (renderAll keys) = .ok (shownAll keys) := by
  rw [readAll_renderAll_eq_ok_iff hne, List.forall₂_same]
  intro k hk
  obtain ⟨k₀, hk₀, rfl⟩ := List.mem_map.1 hk
  refine ⟨rfl, rfl, ?_⟩
  rw [shown_text, shown_value]
  exact h k₀ hk₀

/-- A key has something to be read as unless its text is an odd boolean. -/
theorem exists_readsAs_iff {keys : List Key} :
    (∃ keys', List.Forall₂ ReadsAs keys keys') ↔ ∀ k ∈ keys, ¬ KeyValue.OddBoolean k.text := by
  constructor
  · rintro ⟨keys', h⟩
    induction h with
    | nil => simp
    | cons hk _ ih =>
        exact List.forall_mem_cons.2 ⟨KeyValue.exists_ofText_iff.1 ⟨_, hk.value⟩, ih⟩
  · intro h
    induction keys with
    | nil => exact ⟨[], .nil⟩
    | cons k keys ih =>
        obtain ⟨hk, hks⟩ := List.forall_mem_cons.1 h
        obtain ⟨v, hv⟩ := KeyValue.exists_ofText_iff.2 hk
        obtain ⟨keys', hkeys'⟩ := ih hks
        exact ⟨⟨v, k.text, k.quote⟩ :: keys', .cons ⟨rfl, rfl, hv⟩ hkeys'⟩

/-- **Written keys are read back if and only if no text is an odd boolean.** -/
theorem exists_readAll_renderAll_iff {keys : List Key} (hne : keys ≠ []) :
    (∃ keys', readAll (renderAll keys) = .ok keys') ↔
      ∀ k ∈ keys, ¬ KeyValue.OddBoolean k.text := by
  simp only [readAll_renderAll_eq_ok_iff hne, exists_readsAs_iff, shownAll, List.forall_mem_map,
    shown_text]

theorem shown_quote {forced : Bool} {k : Key} {q : QuoteMark} (h : k.quote = some q) :
    (k.shown forced).quote = some q := by
  unfold shown
  rw [if_neg]
  · exact h
  · simp [h]

/-- What written keys are read as keeps texts and quotes. -/
theorem kept_of_readsAs {keys keys' : List Key} (h : List.Forall₂ ReadsAs (shownAll keys) keys') :
    List.Forall₂ (fun k k' => k'.text = k.text ∧ KeyValue.ofText k.text = .ok k'.value ∧
      ∀ q, k.quote = some q → k'.quote = some q) keys keys' := by
  rw [shownAll, List.forall₂_map_left_iff] at h
  refine h.imp ?_
  intro k k' hk
  obtain ⟨htext, hquote, hvalue⟩ := hk
  rw [shown_text] at htext hvalue
  refine ⟨htext, hvalue, ?_⟩
  intro q hq
  rw [hquote, shown_quote hq]

theorem kept_of_readAll_renderAll {keys keys' : List Key} (hne : keys ≠ [])
    (h : readAll (renderAll keys) = .ok keys') :
    List.Forall₂ (fun k k' => k'.text = k.text ∧ KeyValue.ofText k.text = .ok k'.value ∧
      ∀ q, k.quote = some q → k'.quote = some q) keys keys' :=
  kept_of_readsAs ((readAll_renderAll_eq_ok_iff hne).1 h)

/-! ## Keys that were read -/

theorem valued_of_readAll {raw : List Char} {keys : List Key} (h : readAll raw = .ok keys) :
    Valued keys := by
  obtain ⟨-, parts, -, -, hkeys⟩ := readAll_eq_ok_iff.1 h
  intro k hk
  obtain ⟨part, -, hv⟩ := exists_spelled_of_mem hkeys hk
  exact hv

theorem ne_nil_of_readAll {raw : List Char} {keys : List Key} (h : readAll raw = .ok keys) :
    keys ≠ [] := by
  obtain ⟨-, parts, hne, -, hkeys⟩ := readAll_eq_ok_iff.1 h
  rintro rfl
  rw [List.forall₂_nil_right_iff] at hkeys
  exact hne hkeys

/-- A key that was read opens with no quote mark unless it was quoted. -/
theorem Written.opensQuoted_eq_false {part : List Marked} {cs : List Char}
    (h : Written part cs none) : opensQuoted cs = false := by
  cases h with
  | bare hhead _ =>
      cases part with
      | nil => rfl
      | cons m part =>
          have hm : QuoteMark.ofChar? m.char = none := ofChar?_eq_none_iff.2 (hhead m rfl)
          simp [opensQuoted, hm]

theorem shown_eq_self {part : List Marked} {k : Key} (h : Written part k.text.toList k.quote)
    {forced : Bool} (hf : forced = true → k.quote ≠ none) : k.shown forced = k := by
  unfold shown
  split
  · next hk =>
      obtain ⟨hquote, hshow⟩ := hk
      rw [Option.isNone_iff_eq_none] at hquote
      rw [hquote] at h
      rcases hshow with hforced | hopens
      · exact absurd hquote (hf hforced)
      · rw [h.opensQuoted_eq_false] at hopens
        exact absurd hopens (by simp)
  · rfl

/-- A lone empty key that was read was in quotes. -/
theorem quote_ne_none_of_loneEmpty {raw : List Char} {keys : List Key}
    (h : readAll raw = .ok keys) (hl : loneEmpty keys = true) : ∀ k ∈ keys, k.quote ≠ none := by
  obtain ⟨hraw, parts, -, hs, hkeys⟩ := readAll_eq_ok_iff.1 h
  obtain _ | ⟨k, _ | ⟨k', keys⟩⟩ := keys
  · exact absurd hl (by simp [loneEmpty])
  · intro k' hk' hquote
    obtain rfl := List.mem_singleton.1 hk'
    simp only [loneEmpty, String.isEmpty_iff] at hl
    obtain ⟨part, rfl, hw, -⟩ : ∃ part, parts = [part] ∧ Spelled part k' := by
      cases hkeys with
      | cons hk hnil =>
          cases hnil
          exact ⟨_, rfl, hk⟩
    -- an empty key without quotes is spelled by no characters, but no key list is empty
    rw [hl, hquote] at hw
    obtain rfl := hw.eq_nil
    rw [List.intercalate_singleton] at hs
    exact hraw (Text.Percent.Spells.nil_iff.1 hs)
  · exact absurd hl (by simp [loneEmpty])

theorem shownAll_of_readAll {raw : List Char} {keys : List Key} (h : readAll raw = .ok keys) :
    shownAll keys = keys := by
  have hforced := quote_ne_none_of_loneEmpty h
  obtain ⟨-, parts, -, -, hkeys⟩ := readAll_eq_ok_iff.1 h
  have hself : ∀ k ∈ keys, k.shown (loneEmpty keys) = k := by
    intro k hk
    obtain ⟨part, hw, -⟩ := exists_spelled_of_mem hkeys hk
    exact shown_eq_self hw fun hl => hforced hl k hk
  exact (List.map_congr_left hself).trans (List.map_id keys)

/-- **Keys that were read are written so that they read back unchanged.** -/
theorem readAll_renderAll_of_readAll {raw : List Char} {keys : List Key}
    (h : readAll raw = .ok keys) : readAll (renderAll keys) = .ok keys := by
  rw [readAll_renderAll (ne_nil_of_readAll h) (valued_of_readAll h), shownAll_of_readAll h]

/-! ## Keys in canonical form -/

theorem Valued.unquoted {keys : List Key} (h : Valued keys) : Valued (keys.map unquoted) := by
  intro k hk
  obtain ⟨k₀, hk₀, rfl⟩ := List.mem_map.1 hk
  exact h k₀ hk₀

/-- Keys are written in the same canonical form whatever quotes they are shown in. -/
theorem map_unquoted_shownAll (keys : List Key) :
    (shownAll keys).map unquoted = keys.map unquoted := by
  rw [shownAll, List.map_map]
  refine List.map_congr_left fun k _ => ?_
  rw [Function.comp_apply, unquoted, shown_value, shown_text]
  rfl

/-! ## The characters of a key list -/

/-- What a bare key leaves as it is, quotes leave as it is, too. -/
theorem keeps_quotedKey_of_key {c : Char} (h : EscapeSet.key.keeps c = true) :
    EscapeSet.quotedKey.keeps c = true := by
  have hsub : ∀ d ∈ EscapeSet.quotedKey.members, d ∈ EscapeSet.key.members := by
    simp [EscapeSet.quotedKey, EscapeSet.key]
  simp only [EscapeSet.keeps, Bool.and_eq_true, Bool.not_eq_true', ← Bool.not_eq_true,
    List.contains_iff_mem] at h ⊢
  obtain ⟨hprintable, hc⟩ := h
  exact ⟨hprintable, fun hmem => hc (hsub c hmem)⟩

theorem keeps_digitUpper : ∀ n, n < 16 →
    EscapeSet.quotedKey.keeps (Text.Hex.digitUpper n) = true := by
  decide

/-- Besides the percent signs of escapes, a written key holds only what stays as it is in quotes. -/
theorem mem_render {c : Char} {forced : Bool} {k : Key} (h : c ∈ k.render forced) :
    c = '%' ∨ EscapeSet.quotedKey.keeps c = true := by
  have hencode : ∀ (set : EscapeSet) (cs : List Char),
      (set.keeps c = true → EscapeSet.quotedKey.keeps c = true) → c ∈ encode set cs →
        c = '%' ∨ EscapeSet.quotedKey.keeps c = true := by
    intro set cs hset hc
    rcases Text.Percent.mem_encode hc with hk | hpercent | ⟨n, hn, rfl⟩
    · exact Or.inr (hset hk)
    · exact Or.inl hpercent
    · exact Or.inr (keeps_digitUpper n hn)
  unfold render at h
  split at h
  · rw [write_eq_encode] at h
    exact hencode _ _ id h
  · split at h
    · rw [write_eq_encode] at h
      exact hencode _ _ id h
    · exact hencode _ _ keeps_quotedKey_of_key h

theorem mem_renderAll {c : Char} {keys : List Key} (h : c ∈ renderAll keys) :
    c = '%' ∨ EscapeSet.quotedKey.keeps c = true := by
  rcases Text.mem_intercalate h with hcomma | ⟨row, hrow, hc⟩
  · obtain rfl := List.mem_singleton.1 hcomma
    exact Or.inr (by decide)
  · obtain ⟨k, -, rfl⟩ := List.mem_map.1 hrow
    exact mem_render hc

/-- No character that ends a segment, a path or a query stands in a written key list. -/
theorem not_mem_renderAll {c : Char} (h : c ∈ ['/', '?', '#']) (keys : List Key) :
    c ∉ renderAll keys := by
  intro hc
  simp only [List.mem_cons, List.not_mem_nil, or_false] at h
  rcases mem_renderAll hc with rfl | hkeeps
  · exact absurd h (by decide)
  · rcases h with rfl | rfl | rfl <;> exact absurd hkeeps (by decide)

end Key

end Restconf
