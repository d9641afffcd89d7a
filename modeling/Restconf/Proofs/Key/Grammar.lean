import Mathlib.Data.List.Forall2
import Restconf.Key.Reader
import Restconf.Proofs.Key.Value
import Restconf.Proofs.Text.Percent

set_option autoImplicit false

/-! # The grammar of key lists

A key list is a row of keys divided by literal commas:

```text
keys   = key *("," key)
key    = *character / quote *item quote
item   = "\" character / character
```

A key without quotes has no literal comma and does not open with a quote mark. Between quotes a
backslash stands for the character after it, every other character but the quote mark stands for
itself, and a comma divides nothing. Quotes and backslashes count whether they are escaped or not.

`readToken_eq_ok_iff` says that the reader takes exactly the first key of such a row,
`readFrom_eq_ok_iff` and `readAll_eq_ok_iff` that it reads exactly these rows, and `division_unique`
that a text is such a row in one way only. -/

namespace Restconf.Key

open Text.Percent (Marked Spells decodeWithMarks)

/-! ## One key -/

/-- The character that divides two keys. -/
def comma : Marked :=
  ⟨',', false⟩

/-- What stands between quotes, and the text that it stands for. -/
inductive QuotedText (q : QuoteMark) : List Marked → List Char → Prop
  | nil : QuotedText q [] []
  | guarded {b n : Marked} {ms : List Marked} {cs : List Char} :
      b.char = '\\' → QuotedText q ms cs → QuotedText q (b :: n :: ms) (n.char :: cs)
  | plain {m : Marked} {ms : List Marked} {cs : List Char} :
      m.char ≠ '\\' → m.char ≠ q.char → QuotedText q ms cs → QuotedText q (m :: ms) (m.char :: cs)

/-- A key as it is written, with its text and its quote mark. -/
inductive Written : List Marked → List Char → Option QuoteMark → Prop
  | bare {ms : List Marked} :
      (∀ m ∈ ms.head?, m.char ≠ '\'' ∧ m.char ≠ '\x22') → comma ∉ ms →
      Written ms (ms.map Marked.char) none
  | quoted {q : QuoteMark} {o c : Marked} {body : List Marked} {cs : List Char} :
      o.char = q.char → QuotedText q body cs → c.char = q.char →
      Written (o :: body ++ [c]) cs (some q)

/-- What follows a key: nothing, or a comma and the other keys. -/
def following : Option (List Marked) → List Marked
  | none => []
  | some rest => comma :: rest

theorem separates_iff {m : Marked} : separates m = true ↔ m = comma := by
  obtain ⟨c, e⟩ := m
  simp [separates, comma]

theorem ofChar?_eq_none_iff {c : Char} :
    QuoteMark.ofChar? c = none ↔ c ≠ '\'' ∧ c ≠ '\x22' := by
  unfold QuoteMark.ofChar?
  split
  · next h => simp [h]
  · next h =>
      split
      · next h' => simp [h']
      · next h' => simp [h, h']

/-- Nothing is written only for the empty text, without quotes. -/
theorem Written.of_nil {cs : List Char} {q : Option QuoteMark} (h : Written [] cs q) :
    cs = [] ∧ q = none := by
  generalize hpart : ([] : List Marked) = part at h
  cases h with
  | bare _ _ =>
      subst hpart
      exact ⟨rfl, rfl⟩
  | quoted _ _ _ => simp at hpart

theorem Written.eq_nil {part : List Marked} (h : Written part [] none) : part = [] := by
  generalize hcs : ([] : List Char) = cs at h
  cases h with
  | bare _ _ => simpa using hcs.symm

/-! ## Keys without quotes -/

theorem readBare_append_following {ms : List Marked} (h : comma ∉ ms)
    (rest : Option (List Marked)) :
    readBare (ms ++ following rest) = ⟨ms.map Marked.char, none, rest⟩ := by
  induction ms with
  | nil =>
      cases rest with
      | none => rfl
      | some rest => simp [following, readBare, separates_iff]
  | cons m ms ih =>
      simp only [List.mem_cons, not_or] at h
      have hm : separates m ≠ true := fun hs => h.1 (separates_iff.1 hs).symm
      rw [List.cons_append, readBare, if_neg hm, ih h.2]
      rfl

/-- Every list is a run without dividing comma and what follows it. -/
theorem exists_bare (ms : List Marked) :
    ∃ part rest, ms = part ++ following rest ∧ comma ∉ part := by
  by_cases h : comma ∈ ms
  · obtain ⟨part, rest, hms, hpart⟩ := List.eq_append_cons_of_mem h
    exact ⟨part, some rest, hms, hpart⟩
  · exact ⟨ms, none, by simp [following], h⟩

/-! ## Keys in quotes -/

theorem readQuoted_backslash {q : QuoteMark} {b : Marked} (hb : b.char = '\\') {start total : Nat}
    (n : Marked) (ms : List Marked) :
    readQuoted q start total (b :: n :: ms) =
      (readQuoted q start total ms).map (Token.cons n.char) := by
  rw [readQuoted.eq_def]
  simp only [if_pos hb]

theorem readQuoted_plain {q : QuoteMark} {m : Marked} (hb : m.char ≠ '\\') (hq : m.char ≠ q.char)
    {start total : Nat} (ms : List Marked) :
    readQuoted q start total (m :: ms) = (readQuoted q start total ms).map (Token.cons m.char) := by
  rw [readQuoted.eq_def]
  simp only [if_neg hb, if_neg hq]

theorem QuoteMark.char_ne_backslash (q : QuoteMark) : q.char ≠ '\\' := by
  cases q <;> decide

/-- The characters of a quoted key are taken over one by one, up to whatever comes after them. -/
theorem readQuoted_append {q : QuoteMark} {body : List Marked} {cs : List Char}
    (h : QuotedText q body cs) (start total : Nat) (rest : List Marked) :
    readQuoted q start total (body ++ rest) =
      (readQuoted q start total rest).map fun t => { t with text := cs ++ t.text } := by
  induction h with
  | nil =>
      rw [List.nil_append]
      cases readQuoted q start total rest <;> rfl
  | guarded hb _ ih =>
      rw [List.cons_append, List.cons_append, readQuoted_backslash hb, ih]
      cases readQuoted q start total rest <;> rfl
  | plain hm hq _ ih =>
      rw [List.cons_append, readQuoted_plain hm hq, ih]
      cases readQuoted q start total rest <;> rfl

/-- A list is a quoted text up to a closing mark, or a quoted text that is never closed, perhaps
    with a backslash left over. -/
theorem exists_quotedText (q : QuoteMark) (ms : List Marked) :
    (∃ body cs c rest, ms = body ++ c :: rest ∧ QuotedText q body cs ∧ c.char = q.char) ∨
    (∃ body cs tail, ms = body ++ tail ∧ QuotedText q body cs ∧
      (tail = [] ∨ ∃ b : Marked, b.char = '\\' ∧ tail = [b])) := by
  -- induction on the length, as a backslash takes the next character with it
  induction hn : ms.length using Nat.strongRecOn generalizing ms with
  | _ n ih =>
      obtain _ | ⟨m, ms⟩ := ms
      · exact Or.inr ⟨[], [], [], rfl, .nil, Or.inl rfl⟩
      rw [List.length_cons] at hn
      by_cases hb : m.char = '\\'
      · obtain _ | ⟨n', ms⟩ := ms
        · exact Or.inr ⟨[], [], [m], rfl, .nil, Or.inr ⟨m, hb, rfl⟩⟩
        rw [List.length_cons] at hn
        rcases ih ms.length (by omega) ms rfl with
          ⟨body, cs, c, rest, rfl, hbody, hc⟩ | ⟨body, cs, tail, rfl, hbody, ht⟩
        · exact Or.inl ⟨m :: n' :: body, _, c, rest, rfl, .guarded hb hbody, hc⟩
        · exact Or.inr ⟨m :: n' :: body, _, tail, rfl, .guarded hb hbody, ht⟩
      · by_cases hq : m.char = q.char
        · exact Or.inl ⟨[], [], m, ms, rfl, .nil, hq⟩
        rcases ih ms.length (by omega) ms rfl with
          ⟨body, cs, c, rest, rfl, hbody, hc⟩ | ⟨body, cs, tail, rfl, hbody, ht⟩
        · exact Or.inl ⟨m :: body, _, c, rest, rfl, .plain hb hq hbody, hc⟩
        · exact Or.inr ⟨m :: body, _, tail, rfl, .plain hb hq hbody, ht⟩

theorem readQuoted_close_nil {q : QuoteMark} {c : Marked} (hc : c.char = q.char)
    (start total : Nat) : readQuoted q start total [c] = .ok ⟨[], some q, none⟩ := by
  have hb : c.char ≠ '\\' := by
    rw [hc]
    exact QuoteMark.char_ne_backslash q
  rw [readQuoted.eq_def]
  simp only [if_neg hb, if_pos hc]

/-- What follows the closing mark decides whether the key is accepted. -/
theorem readQuoted_close_cons {q : QuoteMark} {c : Marked} (hc : c.char = q.char)
    (start total : Nat) (n : Marked) (rest : List Marked) :
    readQuoted q start total (c :: n :: rest) =
      if n = comma then .ok ⟨[], some q, some rest⟩
      else .error (.afterQuote n.char (positionOf total (n :: rest))) := by
  have hb : c.char ≠ '\\' := by
    rw [hc]
    exact QuoteMark.char_ne_backslash q
  rw [readQuoted.eq_def]
  simp only [if_neg hb, if_pos hc, separates_iff]

/-- A closed quoted key, followed by the end or a dividing comma. -/
theorem readQuoted_closed {q : QuoteMark} {body : List Marked} {cs : List Char} {c : Marked}
    (h : QuotedText q body cs) (hc : c.char = q.char) (start total : Nat)
    (rest : Option (List Marked)) :
    readQuoted q start total (body ++ c :: following rest) = .ok ⟨cs, some q, rest⟩ := by
  rw [readQuoted_append h]
  cases rest with
  | none => simp [following, readQuoted_close_nil hc, Except.map]
  | some rest => simp [following, readQuoted_close_cons hc, Except.map]

/-- A closed quoted key, followed by something else. -/
theorem readQuoted_trailing {q : QuoteMark} {body : List Marked} {cs : List Char} {c n : Marked}
    (h : QuotedText q body cs) (hc : c.char = q.char) (hn : n ≠ comma) (start total : Nat)
    (rest : List Marked) :
    readQuoted q start total (body ++ c :: n :: rest) =
      .error (.afterQuote n.char (positionOf total (n :: rest))) := by
  rw [readQuoted_append h, readQuoted_close_cons hc, if_neg hn]
  rfl

/-- A quoted key that is never closed. -/
theorem readQuoted_open {q : QuoteMark} {body tail : List Marked} {cs : List Char}
    (h : QuotedText q body cs) (ht : tail = [] ∨ ∃ b : Marked, b.char = '\\' ∧ tail = [b])
    (start total : Nat) :
    readQuoted q start total (body ++ tail) = .error (.openQuote q start) := by
  rw [readQuoted_append h]
  rcases ht with rfl | ⟨b, hb, rfl⟩
  · rfl
  · rw [readQuoted.eq_def]
    simp only [if_pos hb]
    rfl

/-! ## Any key -/

theorem readToken_quoted {q : QuoteMark} {o : Marked} (ho : o.char = q.char) (total : Nat)
    (ms : List Marked) :
    readToken total (o :: ms) = readQuoted q (positionOf total (o :: ms)) total ms := by
  rw [readToken]
  simp only [QuoteMark.ofChar?_eq_some_iff.2 ho]

/-- A written key is read whatever follows it. -/
theorem readToken_append_following {ms : List Marked} {cs : List Char} {q : Option QuoteMark}
    (h : Written ms cs q) (total : Nat) (rest : Option (List Marked)) :
    readToken total (ms ++ following rest) = .ok ⟨cs, q, rest⟩ := by
  cases h with
  | bare hhead hcomma =>
      have hread := readBare_append_following hcomma rest
      cases ms with
      | nil =>
          rw [← hread]
          cases rest <;> rfl
      | cons m ms =>
          have hm : QuoteMark.ofChar? m.char = none := ofChar?_eq_none_iff.2 (hhead m rfl)
          rw [← hread, List.cons_append, readToken]
          simp only [hm]
  | @quoted q o c body cs ho hbody hc =>
      -- the mark that opens the key is skipped, and what follows is a closed quoted text
      rw [List.cons_append, List.cons_append, readToken_quoted ho, List.append_assoc,
        List.cons_append, List.nil_append, readQuoted_closed hbody hc]

/-- A list either starts with a written key, or is refused. -/
theorem exists_written_or_error (total : Nat) (ms : List Marked) :
    (∃ part cs q rest, ms = part ++ following rest ∧ Written part cs q) ∨
      ∃ e, readToken total ms = .error e := by
  -- the first character decides whether the key is in quotes; only then can it be refused
  cases hhead : ms.head?.bind fun m => QuoteMark.ofChar? m.char with
  | none =>
      obtain ⟨part, rest, rfl, hpart⟩ := exists_bare ms
      refine Or.inl ⟨part, _, none, rest, rfl, .bare ?_ hpart⟩
      intro m hm
      cases part with
      | nil => exact absurd hm (by simp)
      | cons p part =>
          obtain rfl : p = m := by simpa using hm
          exact ofChar?_eq_none_iff.1 (by simpa using hhead)
  | some q =>
      obtain _ | ⟨o, ms⟩ := ms
      · simp at hhead
      have ho : o.char = q.char := QuoteMark.ofChar?_eq_some_iff.1 (by simpa using hhead)
      rcases exists_quotedText q ms with
        ⟨body, cs, c, rest, rfl, hbody, hc⟩ | ⟨body, cs, tail, rfl, hbody, ht⟩
      · -- the key is closed: the row ends here, goes on after a comma, or is refused
        cases rest with
        | nil =>
            exact Or.inl ⟨o :: body ++ [c], cs, some q, none, by simp [following],
              .quoted ho hbody hc⟩
        | cons n rest =>
            by_cases hn : n = comma
            · subst hn
              exact Or.inl ⟨o :: body ++ [c], cs, some q, some rest, by simp [following],
                .quoted ho hbody hc⟩
            · exact Or.inr ⟨_, (readToken_quoted ho _ _).trans
                (readQuoted_trailing hbody hc hn _ _ _)⟩
      · exact Or.inr ⟨_, (readToken_quoted ho _ _).trans (readQuoted_open hbody ht _ _)⟩

/-- **The reader takes exactly the key that comes first.** -/
theorem readToken_eq_ok_iff {total : Nat} {ms : List Marked} {t : Token} :
    readToken total ms = .ok t ↔
      ∃ part, ms = part ++ following t.rest ∧ Written part t.text t.quote := by
  constructor
  · intro h
    rcases exists_written_or_error total ms with ⟨part, cs, q, rest, rfl, hw⟩ | ⟨e, he⟩
    · rw [readToken_append_following hw, Except.ok.injEq] at h
      subst h
      exact ⟨part, rfl, hw⟩
    · rw [he] at h
      exact absurd h (by simp)
  · rintro ⟨part, rfl, hw⟩
    exact readToken_append_following hw total t.rest

/-! ## Rows of keys -/

/-- A key as it is written, with the value of its text. -/
def Spelled (part : List Marked) (k : Key) : Prop :=
  Written part k.text.toList k.quote ∧ KeyValue.ofText k.text = .ok k.value

theorem exists_spelled_of_mem {parts : List (List Marked)} {keys : List Key}
    (h : List.Forall₂ Spelled parts keys) {k : Key} (hk : k ∈ keys) : ∃ part, Spelled part k := by
  induction h with
  | nil => exact absurd hk (by simp)
  | @cons part _ _ _ hp _ ih =>
      rcases List.mem_cons.1 hk with rfl | hk
      · exact ⟨part, hp⟩
      · exact ih hk

theorem intercalate_cons_eq_following (part : List Marked) (parts : List (List Marked)) :
    [comma].intercalate (part :: parts) =
      part ++ following (if parts = [] then none else some ([comma].intercalate parts)) := by
  cases parts with
  | nil => simp [following]
  | cons p parts => simp [following]

/-- A key is read and given its value; then the keys after it are read. -/
theorem readFrom_eq_bind (total : Nat) (ms : List Marked) :
    readFrom total ms =
      (readToken total ms).bind fun t =>
        (KeyValue.ofText (String.ofList t.text)).bind fun value =>
          (t.rest.elim (.ok []) (readFrom total)).map
            (⟨value, String.ofList t.text, t.quote⟩ :: ·) := by
  rw [readFrom]
  split
  · next e he =>
      rw [he]
      rfl
  · next t ht =>
      obtain ⟨text, quote, rest⟩ := t
      simp only [ht, Except.bind]
      cases KeyValue.ofText (String.ofList text) with
      | error e => rfl
      | ok value => cases rest <;> rfl

/-- A written key at the front is given its value, and the keys after it are read. -/
theorem readFrom_append_following {part : List Marked} {cs : List Char} {q : Option QuoteMark}
    (h : Written part cs q) (total : Nat) (rest : Option (List Marked)) :
    readFrom total (part ++ following rest) =
      (KeyValue.ofText (String.ofList cs)).bind fun value =>
        (rest.elim (.ok []) (readFrom total)).map (⟨value, String.ofList cs, q⟩ :: ·) := by
  rw [readFrom_eq_bind, readToken_append_following h]
  rfl

/-- The last key is the only one. -/
theorem readFrom_last {part : List Marked} {k : Key} (h : Spelled part k) (total : Nat) :
    readFrom total part = .ok [k] := by
  obtain ⟨hw, hv⟩ := h
  have hread := readFrom_append_following hw total none
  rw [following, List.append_nil, String.ofList_toList, hv] at hread
  exact hread

/-- A key and a comma come before the other keys. -/
theorem readFrom_cons {part : List Marked} {k : Key} (h : Spelled part k) (total : Nat)
    (rest : List Marked) :
    readFrom total (part ++ comma :: rest) = (readFrom total rest).map (k :: ·) := by
  obtain ⟨hw, hv⟩ := h
  have hread := readFrom_append_following hw total (some rest)
  rw [following, String.ofList_toList, hv] at hread
  exact hread

theorem readFrom_intercalate {parts : List (List Marked)} {keys : List Key}
    (h : List.Forall₂ Spelled parts keys) (hne : parts ≠ []) (total : Nat) :
    readFrom total ([comma].intercalate parts) = .ok keys := by
  induction h with
  | nil => exact absurd rfl hne
  | @cons part k parts keys hk hks ih =>
      cases hks with
      | nil =>
          rw [List.intercalate_singleton]
          exact readFrom_last hk total
      | cons _ _ =>
          rw [List.intercalate_cons_cons, List.append_assoc, List.singleton_append,
            readFrom_cons hk, ih (List.cons_ne_nil _ _)]
          rfl

theorem exists_parts_of_readFrom {total : Nat} {ms : List Marked} {keys : List Key}
    (h : readFrom total ms = .ok keys) :
    ∃ parts, parts ≠ [] ∧ ms = [comma].intercalate parts ∧ List.Forall₂ Spelled parts keys := by
  -- induction on the length, as what follows a comma is no direct part of the list
  induction hn : ms.length using Nat.strongRecOn generalizing ms keys with
  | _ n ih =>
      rcases exists_written_or_error total ms with ⟨part, cs, q, rest, rfl, hw⟩ | ⟨e, he⟩
      · cases hv : KeyValue.ofText (String.ofList cs) with
        | error e =>
            rw [readFrom_append_following hw, hv] at h
            exact absurd h (by simp [Except.bind])
        | ok v =>
            have hkey : Spelled part ⟨v, String.ofList cs, q⟩ := ⟨by simpa using hw, hv⟩
            cases rest with
            | none =>
                rw [following, List.append_nil, readFrom_last hkey, Except.ok.injEq] at h
                subst h
                exact ⟨[part], by simp, by simp [following], .cons hkey .nil⟩
            | some ms' =>
                have hlt : ms'.length < n := by
                  rw [← hn]
                  simp only [following, List.length_append, List.length_cons]
                  omega
                rw [following, readFrom_cons hkey] at h
                obtain ⟨keys', hread, rfl⟩ := Except.map_eq_ok_iff.1 h
                obtain ⟨parts, hne, rfl, hparts⟩ := ih _ hlt hread rfl
                refine ⟨part :: parts, by simp, ?_, .cons hkey hparts⟩
                rw [intercalate_cons_eq_following, if_neg hne]
      · rw [readFrom_eq_bind, he] at h
        exact absurd h (by simp [Except.bind])

/-- **The keys that are read are those of the row that the characters are.** -/
theorem readFrom_eq_ok_iff {total : Nat} {ms : List Marked} {keys : List Key} :
    readFrom total ms = .ok keys ↔
      ∃ parts, parts ≠ [] ∧ ms = [comma].intercalate parts ∧ List.Forall₂ Spelled parts keys := by
  constructor
  · exact exists_parts_of_readFrom
  · rintro ⟨parts, hne, rfl, hparts⟩
    exact readFrom_intercalate hparts hne total

/-- Two rows of the same characters have the same first key and go on alike. -/
theorem Written.unique {part part' : List Marked} {cs cs' : List Char} {q q' : Option QuoteMark}
    {rest rest' : Option (List Marked)} (h : Written part cs q) (h' : Written part' cs' q')
    (he : part ++ following rest = part' ++ following rest') :
    part = part' ∧ cs = cs' ∧ q = q' ∧ rest = rest' := by
  have hread := readToken_append_following h 0 rest
  rw [he, readToken_append_following h' 0 rest', Except.ok.injEq, Token.mk.injEq] at hread
  obtain ⟨rfl, rfl, rfl⟩ := hread
  exact ⟨List.append_cancel_right he, rfl, rfl, rfl⟩

/-- **A row of keys can be divided in one way only.** -/
theorem division_unique {parts parts' : List (List Marked)}
    {tokens tokens' : List (List Char × Option QuoteMark)}
    (h : List.Forall₂ (fun p t => Written p t.1 t.2) parts tokens)
    (h' : List.Forall₂ (fun p t => Written p t.1 t.2) parts' tokens')
    (hne : parts ≠ []) (hne' : parts' ≠ [])
    (he : [comma].intercalate parts = [comma].intercalate parts') :
    parts = parts' ∧ tokens = tokens' := by
  induction h generalizing parts' tokens' with
  | nil => exact absurd rfl hne
  | @cons part t parts tokens hw hws ih =>
      cases h' with
      | nil => exact absurd rfl hne'
      | @cons part' t' parts' tokens' hw' hws' =>
          -- the first keys are the same; then both rows end, or both go on after a comma
          rw [intercalate_cons_eq_following, intercalate_cons_eq_following] at he
          obtain ⟨rfl, hcs, hq, hrest⟩ := hw.unique hw' he
          obtain rfl : t = t' := Prod.ext hcs hq
          by_cases hp : parts = []
          · by_cases hp' : parts' = []
            · subst hp
              subst hp'
              cases hws
              cases hws'
              exact ⟨rfl, rfl⟩
            · simp [hp, hp'] at hrest
          · by_cases hp' : parts' = []
            · simp [hp, hp'] at hrest
            · simp only [if_neg hp, if_neg hp', Option.some.injEq] at hrest
              obtain ⟨rfl, rfl⟩ := ih hws' hp hp' hrest
              exact ⟨rfl, rfl⟩

/-! ## Raw key lists -/

/-- **A key list is read if and only if it spells a row of keys that all have a value.** -/
theorem readAll_eq_ok_iff {raw : List Char} {keys : List Key} :
    readAll raw = .ok keys ↔
      raw ≠ [] ∧ ∃ parts, parts ≠ [] ∧ Spells raw ([comma].intercalate parts) ∧
        List.Forall₂ Spelled parts keys := by
  unfold readAll
  cases raw with
  | nil => simp
  | cons c raw =>
      simp only [List.isEmpty_cons, Bool.false_eq_true, if_false, ne_eq, reduceCtorEq,
        not_false_eq_true, true_and]
      constructor
      · intro h
        split at h
        · exact absurd h (by simp)
        · next ms hms =>
            obtain ⟨parts, hne, rfl, hparts⟩ := readFrom_eq_ok_iff.1 h
            exact ⟨parts, hne, Text.Percent.spells_of_decodeWithMarks hms, hparts⟩
      · rintro ⟨parts, hne, hs, hparts⟩
        rw [Text.Percent.decodeWithMarks_of_spells hs]
        exact readFrom_intercalate hparts hne _

end Restconf.Key
