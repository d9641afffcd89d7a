import Restconf.Proofs.Key.Grammar

set_option autoImplicit false

/-! # Which escapes the reader of keys sees

A character that was escaped is read like one that was not, unless it is a comma: only of a comma
does the reader ask, as only a literal one divides keys. So a key list is read alike however its
other characters are escaped, down to the places that its errors name (`readAll_congr`). In a list
that is read, the commas between the quotes of a key divide nothing either way, and may be escaped
at will (`readAll_of_recodes`). -/

namespace Restconf.Key

open Text.Percent (Marked decodeWithMarks)

/-! ## Characters as the reader sees them -/

/-- The character, with its mark only if it is a comma. -/
def seen (m : Marked) : Marked :=
  ⟨m.char, m.char = ',' && m.escaped⟩

@[simp] theorem char_seen (m : Marked) : (seen m).char = m.char := rfl

@[simp] theorem separates_seen (m : Marked) : separates (seen m) = separates m := by
  by_cases hm : m.char = ','
  · simp [separates, seen, hm]
  · simp [separates, seen, hm]

/-- A key with what follows it as the reader sees it. -/
def Token.seen (t : Token) : Token :=
  { t with rest := t.rest.map (·.map Key.seen) }

theorem Token.seen_cons (c : Char) (t : Token) : (t.cons c).seen = t.seen.cons c := rfl

@[simp] theorem positionOf_map_seen (total : Nat) (ms : List Marked) :
    positionOf total (ms.map seen) = positionOf total ms := by
  rw [positionOf, positionOf, List.length_map]

/-! ## One key -/

theorem readBare_map_seen (ms : List Marked) : readBare (ms.map seen) = (readBare ms).seen := by
  induction ms with
  | nil => rfl
  | cons m ms ih =>
      rw [List.map_cons, readBare, readBare, separates_seen]
      split
      · rfl
      · rw [ih, char_seen, Token.seen_cons]

theorem readQuoted_map_seen (q : QuoteMark) (start total : Nat) (ms : List Marked) :
    readQuoted q start total (ms.map seen) = (readQuoted q start total ms).map Token.seen := by
  fun_induction readQuoted q start total ms with
  | case1 => rfl
  | case2 m hm => exact readQuoted_open .nil (Or.inr ⟨seen m, hm, rfl⟩) start total
  | case3 m hm n ms ih =>
      rw [List.map_cons, List.map_cons, readQuoted_backslash (b := seen m) hm, ih]
      cases readQuoted q start total ms <;> rfl
  | case4 m hm hq => exact readQuoted_close_nil (c := seen m) hq start total
  | case5 m hm hq n ms hn =>
      have hcomma : seen n = comma := separates_iff.1 ((separates_seen n).trans hn)
      rw [List.map_cons, List.map_cons, readQuoted_close_cons (c := seen m) hq, if_pos hcomma]
      rfl
  | case6 m hm hq n ms hn =>
      have hcomma : seen n ≠ comma :=
        fun h => hn ((separates_seen n).symm.trans (separates_iff.2 h))
      rw [List.map_cons, List.map_cons, readQuoted_close_cons (c := seen m) hq, if_neg hcomma,
        ← List.map_cons, positionOf_map_seen]
      rfl
  | case7 m ms hm hq ih =>
      rw [List.map_cons, readQuoted_plain (m := seen m) hm hq, ih]
      cases readQuoted q start total ms <;> rfl

theorem readToken_map_seen (total : Nat) (ms : List Marked) :
    readToken total (ms.map seen) = (readToken total ms).map Token.seen := by
  cases ms with
  | nil => rfl
  | cons m ms =>
      have hposition := positionOf_map_seen total (m :: ms)
      have hbare := readBare_map_seen (m :: ms)
      rw [List.map_cons] at hposition hbare
      rw [List.map_cons, readToken, readToken, char_seen, hposition]
      cases QuoteMark.ofChar? m.char with
      | some q => exact readQuoted_map_seen q _ _ _
      | none => exact congrArg Except.ok hbare

/-! ## Rows of keys -/

theorem readFrom_map_seen (total : Nat) (ms : List Marked) :
    readFrom total (ms.map seen) = readFrom total ms := by
  -- induction on the length, as what follows a comma is no direct part of the list
  induction hn : ms.length using Nat.strongRecOn generalizing ms with
  | _ n ih =>
      rw [readFrom_eq_bind, readFrom_eq_bind total ms, readToken_map_seen]
      cases ht : readToken total ms with
      | error e => rfl
      | ok t =>
          have hrest : t.seen.rest.elim (.ok []) (readFrom total) =
              t.rest.elim (.ok []) (readFrom total) := by
            obtain ⟨text, quote, rest⟩ := t
            cases rest with
            | none => rfl
            | some rest => exact ih _ (hn ▸ length_rest_readToken ht rfl) rest rfl
          simp only [Except.map, Except.bind, hrest]
          rfl

/-! ## Raw key lists -/

theorem readAll_of_decodeWithMarks {raw : List Char} {ms : List Marked}
    (h : decodeWithMarks raw = some ms) :
    readAll raw = if ms = [] then .error .noKeys else readFrom ms.length ms := by
  have hnil : raw = [] ↔ ms = [] := by
    rw [Text.Percent.decodeWithMarks_eq_some_iff] at h
    constructor
    · rintro rfl
      exact h.unique .nil
    · rintro rfl
      exact Text.Percent.Spells.nil_iff.1 h
  by_cases hms : ms = []
  · rw [readAll, if_pos hms, if_pos (List.isEmpty_iff.2 (hnil.2 hms))]
  · have hraw : ¬ raw.isEmpty = true := by
      rw [List.isEmpty_iff]
      exact fun hempty => hms (hnil.1 hempty)
    rw [readAll, if_neg hraw, if_neg hms, h]

/-- **Key lists that look alike to the reader are read alike, or refused for the same error.** -/
theorem readAll_congr {raw raw' : List Char} {ms ms' : List Marked}
    (h : decodeWithMarks raw = some ms) (h' : decodeWithMarks raw' = some ms')
    (hseen : ms.map seen = ms'.map seen) : readAll raw = readAll raw' := by
  have hlength : ms.length = ms'.length := by simpa using congrArg List.length hseen
  have hnil : ms = [] ↔ ms' = [] := by
    rw [← List.length_eq_zero_iff, ← List.length_eq_zero_iff, hlength]
  rw [readAll_of_decodeWithMarks h, readAll_of_decodeWithMarks h', ← readFrom_map_seen,
    ← readFrom_map_seen ms'.length, hseen, hlength]
  simp only [hnil]

/-! ## Commas -/

/-- At the given places, both lists have the same escaped commas. -/
def CommasAgree (places : Nat → Prop) (ms ms' : List Marked) : Prop :=
  ∀ i m m', ms[i]? = some m → ms'[i]? = some m' → m.char = ',' → places i → m'.escaped = m.escaped

theorem CommasAgree.mono {places places' : Nat → Prop} {ms ms' : List Marked}
    (h : CommasAgree places ms ms') (hplaces : ∀ i, i < ms.length → places' i → places i) :
    CommasAgree places' ms ms' := by
  intro i m m' hm hm' hcomma hi
  have hlt : i < ms.length := (List.getElem?_eq_some_iff.1 hm).1
  exact h i m m' hm hm' hcomma (hplaces i hlt hi)

/-- What holds of two lists holds of their front parts. -/
theorem CommasAgree.left {places : Nat → Prop} {a a' b b' : List Marked}
    (h : CommasAgree places (a ++ b) (a' ++ b')) (hlength : a'.length = a.length) :
    CommasAgree places a a' := by
  intro i m m' hm hm' hcomma hi
  have hlt : i < a.length := (List.getElem?_eq_some_iff.1 hm).1
  refine h i m m' ?_ ?_ hcomma hi
  · rw [List.getElem?_append_left hlt, hm]
  · rw [List.getElem?_append_left (hlength ▸ hlt), hm']

/-- What holds of two lists holds of what follows their front parts. -/
theorem CommasAgree.right {places : Nat → Prop} {a a' b b' : List Marked}
    (h : CommasAgree places (a ++ b) (a' ++ b')) (hlength : a'.length = a.length) :
    CommasAgree (fun i => places (a.length + i)) b b' := by
  intro i m m' hm hm' hcomma hi
  refine h (a.length + i) m m' ?_ ?_ hcomma hi
  · rw [List.getElem?_append_right (by omega), Nat.add_sub_cancel_left, hm]
  · rw [List.getElem?_append_right (by omega), hlength, Nat.add_sub_cancel_left, hm']

/-- Lists of the same characters with the same escaped commas look alike to the reader. -/
theorem map_seen_eq_of_commasAgree {ms ms' : List Marked}
    (hchars : ms.map Marked.char = ms'.map Marked.char)
    (h : CommasAgree (fun _ => True) ms ms') : ms.map seen = ms'.map seen := by
  have hlength : ms.length = ms'.length := by simpa using congrArg List.length hchars
  refine List.ext_getElem (by simpa using hlength) fun i hi hi' => ?_
  rw [List.length_map] at hi hi'
  have hchar : ms[i].char = ms'[i].char := by
    have := List.getElem_of_eq hchars (by simpa using hi)
    simpa using this
  have hmark := h i ms[i] ms'[i] (List.getElem?_eq_getElem hi) (List.getElem?_eq_getElem hi')
  rw [List.getElem_map, List.getElem_map, seen, seen, ← hchar]
  by_cases hcomma : ms[i].char = ','
  · rw [hmark hcomma trivial]
  · simp [hcomma]

/-! ## Places between quotes -/

/-- Place `i` of a row of keys lies between the quotes of a key in quotes. -/
inductive InQuotes : List Marked → Nat → Prop
  | first {part : List Marked} {cs : List Char} {q : QuoteMark} {rest : Option (List Marked)}
      {i : Nat} : Written part cs (some q) → 0 < i → i + 1 < part.length →
      InQuotes (part ++ following rest) i
  | later {part rest : List Marked} {cs : List Char} {q : Option QuoteMark} {i : Nat} :
      Written part cs q → InQuotes rest i → InQuotes (part ++ comma :: rest) (part.length + 1 + i)

/-- A place between quotes is in the first key, which has quotes then, or comes after the comma. -/
theorem inQuotes_append_following_iff {part : List Marked} {cs : List Char}
    {q : Option QuoteMark} (h : Written part cs q) {rest : Option (List Marked)} {i : Nat} :
    InQuotes (part ++ following rest) i ↔
      (q ≠ none ∧ 0 < i ∧ i + 1 < part.length) ∨
        ∃ ms j, rest = some ms ∧ i = part.length + 1 + j ∧ InQuotes ms j := by
  constructor
  · intro hi
    generalize hms : part ++ following rest = ms at hi
    -- the row can be divided in one way only
    cases hi with
    | first h' hpos hlt =>
        obtain ⟨rfl, -, rfl, -⟩ := h.unique h' hms
        exact Or.inl ⟨by simp, hpos, hlt⟩
    | @later part' ms' _ _ j h' hj =>
        have hms' : part ++ following rest = part' ++ following (some ms') := hms
        obtain ⟨rfl, -, -, rfl⟩ := h.unique h' hms'
        exact Or.inr ⟨ms', j, rfl, rfl, hj⟩
  · rintro (⟨hq, hpos, hlt⟩ | ⟨ms, j, rfl, rfl, hj⟩)
    · obtain ⟨q, rfl⟩ := Option.ne_none_iff_exists'.1 hq
      exact .first h hpos hlt
    · exact .later h hj

/-! ## Keys that are escaped otherwise -/

theorem QuotedText.congr {q : QuoteMark} {body body' : List Marked} {cs : List Char}
    (h : QuotedText q body cs) (hchars : body'.map Marked.char = body.map Marked.char) :
    QuotedText q body' cs := by
  induction h generalizing body' with
  | nil =>
      obtain rfl := List.map_eq_nil_iff.1 hchars
      exact .nil
  | @guarded b n ms cs hb _ ih =>
      obtain ⟨b', ms₁, rfl, hb', hms₁⟩ := List.map_eq_cons_iff.1 hchars
      obtain ⟨n', ms', rfl, hn', hms'⟩ := List.map_eq_cons_iff.1 hms₁
      rw [← hn']
      exact .guarded (hb'.trans hb) (ih hms')
  | @plain m ms cs hb hq _ ih =>
      obtain ⟨m', ms', rfl, hm', hms'⟩ := List.map_eq_cons_iff.1 hchars
      rw [← hm'] at hb hq ⊢
      exact .plain hb hq (ih hms')

/-- The characters of the first list at a place, given those of the second. -/
theorem getElem?_of_map_char_eq {ms ms' : List Marked}
    (hchars : ms'.map Marked.char = ms.map Marked.char) {i : Nat} {m' : Marked}
    (hm' : ms'[i]? = some m') : ∃ m, ms[i]? = some m ∧ m.char = m'.char := by
  have hchar : (ms.map Marked.char)[i]? = some m'.char := by
    rw [← hchars, List.getElem?_map, hm', Option.map_some]
  rw [List.getElem?_map, Option.map_eq_some_iff] at hchar
  exact hchar

/-- A key keeps its text and quote mark however it is escaped, up to the commas of a key without
    quotes. -/
theorem Written.congr {part part' : List Marked} {cs : List Char} {q : Option QuoteMark}
    (h : Written part cs q) (hchars : part'.map Marked.char = part.map Marked.char)
    (hcommas : CommasAgree (fun _ => q = none) part part') : Written part' cs q := by
  cases h with
  | bare hhead hcomma =>
      rw [← hchars]
      refine .bare ?_ ?_
      · intro m' hm'
        rw [Option.mem_def, List.head?_eq_getElem?] at hm'
        obtain ⟨m, hm, hchar⟩ := getElem?_of_map_char_eq hchars hm'
        rw [← hchar]
        exact hhead m (by rw [Option.mem_def, List.head?_eq_getElem?, hm])
      · intro hmem
        obtain ⟨i, hi⟩ := List.mem_iff_getElem?.1 hmem
        obtain ⟨⟨c, escaped⟩, hm, rfl⟩ := getElem?_of_map_char_eq hchars hi
        obtain rfl : comma.escaped = escaped := hcommas i _ _ hm hi rfl rfl
        exact hcomma (List.mem_of_getElem? hm)
  | @quoted q o c body cs ho hbody hc =>
      rw [List.map_append, List.map_cons] at hchars
      obtain ⟨front', last', rfl, hfront, hlast⟩ := List.map_eq_append_iff.1 hchars
      obtain ⟨o', body', rfl, ho', hbody'⟩ := List.map_eq_cons_iff.1 hfront
      obtain ⟨c', rfl, hc'⟩ := List.map_eq_singleton_iff.1 hlast
      exact .quoted (ho'.trans ho) (hbody.congr hbody') (hc'.trans hc)

/-- The row has the same characters, and the same escaped commas outside of quotes. -/
structure Recodes (ms ms' : List Marked) : Prop where
  chars : ms'.map Marked.char = ms.map Marked.char
  commas : CommasAgree (fun i => ¬ InQuotes ms i) ms ms'

/-- If a row is escaped otherwise, its first key and the keys after it are. -/
theorem Recodes.exists_append_following {part : List Marked} {cs : List Char}
    {q : Option QuoteMark} (hw : Written part cs q) {rest : Option (List Marked)}
    {ms' : List Marked} (h : Recodes (part ++ following rest) ms') :
    ∃ part' rest', ms' = part' ++ following rest' ∧ Written part' cs q ∧
      Option.Rel Recodes rest rest' := by
  obtain ⟨hchars, hcommas⟩ := h
  rw [List.map_append] at hchars
  obtain ⟨part', tail', rfl, hpart, htail⟩ := List.map_eq_append_iff.1 hchars
  have hlength : part'.length = part.length := by simpa using congrArg List.length hpart
  have hplaces : ∀ i, InQuotes (part ++ following rest) i ↔ _ :=
    fun i => inQuotes_append_following_iff hw
  have hw' : Written part' cs q := by
    refine hw.congr hpart ((hcommas.left hlength).mono ?_)
    intro i hi hq hquotes
    rcases (hplaces i).1 hquotes with ⟨hne, -, -⟩ | ⟨_, j, -, hj, -⟩
    · exact hne hq
    · omega
  have hright := hcommas.right hlength
  cases rest with
  | none =>
      obtain rfl := List.map_eq_nil_iff.1 htail
      exact ⟨part', none, rfl, hw', .none⟩
  | some ms =>
      obtain ⟨c, ms', rfl, hc, hms⟩ := List.map_eq_cons_iff.1 htail
      -- the comma after the key is not between quotes, so it stays literal
      have hout : ¬ InQuotes (part ++ following (some ms)) (part.length + 0) := by
        rw [hplaces]
        rintro (⟨-, -, hlt⟩ | ⟨_, j, -, hj, -⟩)
        · omega
        · omega
      obtain rfl : c = comma := by
        have hmark : c.escaped = comma.escaped := hright 0 comma c rfl rfl rfl hout
        obtain ⟨_, _⟩ := c
        obtain rfl := hc
        obtain rfl := hmark
        rfl
      refine ⟨part', some ms', rfl, hw', .some ⟨hms, ?_⟩⟩
      replace hright : CommasAgree _ ([comma] ++ ms) ([comma] ++ ms') := hright
      refine (hright.right rfl).mono ?_
      intro j _ hj hquotes
      rcases (hplaces _).1 hquotes with ⟨-, -, hlt⟩ | ⟨ms₁, j₁, hms₁, hj₁, hquotes₁⟩
      · omega
      · obtain rfl := Option.some.inj hms₁
        obtain rfl : j = j₁ := by
          simp only [List.length_singleton] at hj₁
          omega
        exact hj hquotes₁

/-- A row of keys that is escaped otherwise is read as the same keys. -/
theorem readFrom_of_recodes {parts : List (List Marked)} {keys : List Key}
    (h : List.Forall₂ Spelled parts keys) (hne : parts ≠ []) (total : Nat) {ms : List Marked}
    (hms : Recodes ([comma].intercalate parts) ms) : readFrom total ms = .ok keys := by
  induction h generalizing ms with
  | nil => exact absurd rfl hne
  | @cons part k parts keys hk hks ih =>
      obtain ⟨hw, hv⟩ := hk
      rw [intercalate_cons_eq_following] at hms
      obtain ⟨part', rest', rfl, hw', hrest⟩ := hms.exists_append_following hw
      have hkey : Spelled part' k := ⟨hw', hv⟩
      by_cases hparts : parts = []
      · subst hparts
        cases hks
        rw [if_pos rfl] at hrest
        cases hrest
        rw [following, List.append_nil]
        exact readFrom_last hkey total
      · rw [if_neg hparts] at hrest
        cases hrest with
        | some hrecodes =>
            rw [following, readFrom_cons hkey, ih hparts hrecodes]
            rfl

/-- **A key list that is read is read as the same keys however it is escaped, up to the commas
    outside of quotes.** -/
theorem readAll_of_recodes {raw raw' : List Char} {ms ms' : List Marked} {keys : List Key}
    (hraw : decodeWithMarks raw = some ms) (hraw' : decodeWithMarks raw' = some ms')
    (h : Recodes ms ms') (hread : readAll raw = .ok keys) : readAll raw' = .ok keys := by
  rw [readAll_of_decodeWithMarks hraw] at hread
  by_cases hms : ms = []
  · rw [if_pos hms] at hread
    exact absurd hread (by simp)
  · rw [if_neg hms] at hread
    obtain ⟨parts, hne, rfl, hkeys⟩ := readFrom_eq_ok_iff.1 hread
    have hms' : ms' ≠ [] := by
      rintro rfl
      exact hms (List.map_eq_nil_iff.1 h.chars.symm)
    rw [readAll_of_decodeWithMarks hraw', if_neg hms']
    exact readFrom_of_recodes hkeys hne _ h

end Restconf.Key
