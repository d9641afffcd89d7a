import Restconf.Proofs.Key.Kinds
import Restconf.Proofs.Key.Marks

set_option autoImplicit false

/-! # Which key is refused, and where

An error names a place, and the reader came to the place by jumps: over a key and its comma, and
between quotes over a backslash and the character after it. Here the places are found without
reading. Quotes that opened at `s` are closed by the first mark after `s` that no backslash
guards (`ClosesAt`), and `FaultAt` says what can be wrong with the key at `s`.

`readToken_eq_error_iff` and `faultAt_iff` compare this with the reader of one key;
`readFrom_eq_error_iff` and `readAll_eq_error_iff` say that a list is refused for its first key at
fault, with all keys before it read. -/

namespace Restconf.Key

open Text.Percent (Marked Spells)

/-! ## Places -/

theorem drop_eq_cons_iff {d ms : List Marked} {i : Nat} {m : Marked} :
    d.drop i = m :: ms ↔ d[i]? = some m ∧ d.drop (i + 1) = ms := by
  rw [← List.head?_drop, ← List.tail_drop]
  cases d.drop i <;> simp

/-- What is left of a list tells the place in it. -/
theorem positionOf_eq {d ms : List Marked} {i : Nat} {m : Marked} (h : d.drop i = m :: ms) :
    positionOf d.length (m :: ms) = i := by
  have hlt : i < d.length := (List.getElem?_eq_some_iff.1 (drop_eq_cons_iff.1 h).1).1
  rw [positionOf, ← h, List.length_drop]
  omega

/-! ## Backslashes -/

/-- The character at this place is guarded: a backslash comes before it that is not guarded
    itself. -/
def IsGuarded (d : List Marked) : Nat → Prop
  | 0 => False
  | i + 1 => (∃ b, d[i]? = some b ∧ b.char = '\\') ∧ ¬ IsGuarded d i

theorem isGuarded_succ_iff {d : List Marked} {i : Nat} {m : Marked} (hm : d[i]? = some m) :
    IsGuarded d (i + 1) ↔ m.char = '\\' ∧ ¬ IsGuarded d i := by
  simp [IsGuarded, hm]

theorem not_isGuarded_succ {d : List Marked} {i : Nat} {m : Marked} (hm : d[i]? = some m)
    (hb : m.char ≠ '\\') : ¬ IsGuarded d (i + 1) :=
  fun h => hb ((isGuarded_succ_iff hm).1 h).1

/-- From place `i` up to place `j`, every quote mark is guarded. -/
def MarksGuarded (d : List Marked) (q : QuoteMark) (i j : Nat) : Prop :=
  ∀ k m, i ≤ k → k < j → d[k]? = some m → m.char = q.char → IsGuarded d k

theorem MarksGuarded.cons {d : List Marked} {q : QuoteMark} {i j : Nat} {m : Marked}
    (hm : d[i]? = some m) (hguarded : m.char = q.char → IsGuarded d i)
    (h : MarksGuarded d q (i + 1) j) : MarksGuarded d q i j := by
  intro k n hik hkj hn hq
  obtain rfl | hlt := Nat.eq_or_lt_of_le hik
  · obtain rfl := Option.some.inj (hm.symm.trans hn)
    exact hguarded hq
  · exact h k n hlt hkj hn hq

/-- The quote marks in a quoted text are guarded, and what comes after the text is not. -/
theorem QuotedText.marksGuarded {q : QuoteMark} {body rest d : List Marked} {cs : List Char}
    (h : QuotedText q body cs) {i : Nat} (hd : d.drop i = body ++ rest) (hi : ¬ IsGuarded d i) :
    MarksGuarded d q i (i + body.length) ∧ d.drop (i + body.length) = rest ∧
      ¬ IsGuarded d (i + body.length) := by
  induction h generalizing i with
  | nil => exact ⟨fun k _ hik hk => absurd hk (Nat.not_lt.2 hik), hd, hi⟩
  | @guarded b n ms cs hb _ ih =>
      obtain ⟨hbd, hnd⟩ := drop_eq_cons_iff.1 hd
      obtain ⟨hnd, hmsd⟩ := drop_eq_cons_iff.1 hnd
      have hn : IsGuarded d (i + 1) := (isGuarded_succ_iff hbd).2 ⟨hb, hi⟩
      obtain ⟨hmarks, hrest⟩ := ih hmsd fun h => ((isGuarded_succ_iff hnd).1 h).2 hn
      have hlength : i + (b :: n :: ms).length = i + 1 + 1 + ms.length := by
        simp only [List.length_cons]
        omega
      have hmark : b.char ≠ q.char := hb ▸ (QuoteMark.char_ne_backslash q).symm
      rw [hlength]
      exact ⟨(hmarks.cons hnd fun _ => hn).cons hbd fun hq => absurd hq hmark, hrest⟩
  | @plain m ms cs hb hmark _ ih =>
      obtain ⟨hmd, hmsd⟩ := drop_eq_cons_iff.1 hd
      obtain ⟨hmarks, hrest⟩ := ih hmsd (not_isGuarded_succ hmd hb)
      have hlength : i + (m :: ms).length = i + 1 + ms.length := by
        simp only [List.length_cons]
        omega
      rw [hlength]
      exact ⟨hmarks.cons hmd fun hq => absurd hq hmark, hrest⟩

/-! ## Closing marks -/

/-- The quote mark at `i` is the first one after `s` that is not guarded. -/
structure ClosesAt (d : List Marked) (q : QuoteMark) (s i : Nat) : Prop where
  after : s < i
  mark : ∃ m, d[i]? = some m ∧ m.char = q.char
  unguarded : ¬ IsGuarded d i
  first : MarksGuarded d q (s + 1) i

theorem ClosesAt.not_marksGuarded {d : List Marked} {q : QuoteMark} {s i : Nat}
    (h : ClosesAt d q s i) : ¬ MarksGuarded d q (s + 1) d.length := by
  obtain ⟨m, hm, hq⟩ := h.mark
  have hlt : i < d.length := (List.getElem?_eq_some_iff.1 hm).1
  exact fun hopen => h.unguarded (hopen i m h.after hlt hm hq)

theorem ClosesAt.le {d : List Marked} {q : QuoteMark} {s i j : Nat} (hi : ClosesAt d q s i)
    (hj : ClosesAt d q s j) : j ≤ i := by
  obtain ⟨m, hm, hq⟩ := hi.mark
  exact Nat.le_of_not_lt fun hij => hi.unguarded (hj.first i m hi.after hij hm hq)

theorem ClosesAt.unique {d : List Marked} {q : QuoteMark} {s i j : Nat} (hi : ClosesAt d q s i)
    (hj : ClosesAt d q s j) : i = j :=
  Nat.le_antisymm (hj.le hi) (hi.le hj)

/-- Quotes that open at `s` are closed after a quoted text, or stay open to the end. -/
theorem exists_closesAt_or_marksGuarded {d ms : List Marked} {q : QuoteMark} {o : Marked} {s : Nat}
    (hd : d.drop s = o :: ms) (ho : o.char = q.char) :
    (∃ body cs c rest i, ms = body ++ c :: rest ∧ QuotedText q body cs ∧ c.char = q.char ∧
      ClosesAt d q s i ∧ d.drop (i + 1) = rest) ∨
    (∃ body cs tail, ms = body ++ tail ∧ QuotedText q body cs ∧
      (tail = [] ∨ ∃ b : Marked, b.char = '\\' ∧ tail = [b]) ∧
      MarksGuarded d q (s + 1) d.length) := by
  obtain ⟨hod, hms⟩ := drop_eq_cons_iff.1 hd
  have hs : ¬ IsGuarded d (s + 1) :=
    not_isGuarded_succ hod (ho ▸ QuoteMark.char_ne_backslash q)
  rcases exists_quotedText q ms with
    ⟨body, cs, c, rest, rfl, hbody, hc⟩ | ⟨body, cs, tail, rfl, hbody, ht⟩
  · obtain ⟨hmarks, hclose, hend⟩ := hbody.marksGuarded hms hs
    obtain ⟨hcd, hrest⟩ := drop_eq_cons_iff.1 hclose
    exact Or.inl ⟨body, cs, c, rest, _, rfl, hbody, hc,
      ⟨by omega, ⟨c, hcd, hc⟩, hend, hmarks⟩, hrest⟩
  · obtain ⟨hmarks, htail, -⟩ := hbody.marksGuarded hms hs
    refine Or.inr ⟨body, cs, tail, rfl, hbody, ht, fun k m hk _ hm hq => ?_⟩
    rcases Nat.lt_or_ge k (s + 1 + body.length) with hlt | hge
    · exact hmarks k m hk hlt hm hq
    · -- at most a backslash is left over, and that is no quote mark
      obtain ⟨j, rfl⟩ := Nat.exists_eq_add_of_le hge
      rw [← List.getElem?_drop, htail] at hm
      rcases ht with rfl | ⟨b, hb, rfl⟩
      · simp at hm
      · obtain rfl := List.mem_singleton.1 (List.mem_of_getElem? hm)
        exact absurd (hq.symm.trans hb) (QuoteMark.char_ne_backslash q)

/-! ## One key -/

/-- What is wrong with the quotes of the key that starts at `s`. -/
inductive QuoteFault (d : List Marked) (s : Nat) : ListInstance.Error → Prop
  | openQuote {q : QuoteMark} {o : Marked} :
      d[s]? = some o → o.char = q.char → MarksGuarded d q (s + 1) d.length →
      QuoteFault d s (.openQuote q s)
  | afterQuote {q : QuoteMark} {o n : Marked} {i : Nat} :
      d[s]? = some o → o.char = q.char → ClosesAt d q s i → d[i + 1]? = some n → n ≠ comma →
      QuoteFault d s (.afterQuote n.char (i + 1))

/-- What is wrong with the key that starts at `s`: its quotes, or its text as a whole. -/
inductive FaultAt (d : List Marked) (s : Nat) : ListInstance.Error → Prop
  | quotes {e : ListInstance.Error} : QuoteFault d s e → FaultAt d s e
  | value {part : List Marked} {cs : List Char} {q : Option QuoteMark}
      {rest : Option (List Marked)} :
      d.drop s = part ++ following rest → Written part cs q →
      KeyValue.OddBoolean (String.ofList cs) → FaultAt d s (.badBoolean (String.ofList cs))

/-- A key in quotes that stay open is refused at the place where they open. -/
theorem readToken_of_marksGuarded {d : List Marked} {q : QuoteMark} {o : Marked} {s : Nat}
    (hod : d[s]? = some o) (ho : o.char = q.char) (h : MarksGuarded d q (s + 1) d.length) :
    readToken d.length (d.drop s) = .error (.openQuote q s) := by
  have hd : d.drop s = o :: d.drop (s + 1) := drop_eq_cons_iff.2 ⟨hod, rfl⟩
  rcases exists_closesAt_or_marksGuarded hd ho with
    ⟨_, _, _, _, i, -, -, -, hi, -⟩ | ⟨body, cs, tail, hms, hbody, ht, -⟩
  · exact absurd h hi.not_marksGuarded
  · rw [hd, readToken_quoted ho, positionOf_eq hd, hms, readQuoted_open hbody ht]

/-- A key in quotes that close is refused just if something else than a comma comes next. -/
theorem readToken_eq_error_iff_of_closesAt {d : List Marked} {q : QuoteMark} {o : Marked}
    {s i : Nat} (hod : d[s]? = some o) (ho : o.char = q.char) (h : ClosesAt d q s i)
    {e : ListInstance.Error} :
    readToken d.length (d.drop s) = .error e ↔
      ∃ n, d[i + 1]? = some n ∧ n ≠ comma ∧ e = .afterQuote n.char (i + 1) := by
  have hd : d.drop s = o :: d.drop (s + 1) := drop_eq_cons_iff.2 ⟨hod, rfl⟩
  rcases exists_closesAt_or_marksGuarded hd ho with
    ⟨body, cs, c, rest, i', hms, hbody, hc, hi', hrest⟩ | ⟨_, _, _, -, -, -, hopen⟩
  · obtain rfl := h.unique hi'
    rw [hd, readToken_quoted ho, hms]
    cases rest with
    | nil =>
        have hlast : d[i + 1]? = none := by
          rw [← List.head?_drop, hrest]
          rfl
        rw [show body ++ [c] = body ++ c :: following none from rfl, readQuoted_closed hbody hc,
          hlast]
        simp
    | cons n rest =>
        have hnext : d[i + 1]? = some n := (drop_eq_cons_iff.1 hrest).1
        rw [hnext]
        by_cases hn : n = comma
        · rw [hn, show body ++ c :: comma :: rest = body ++ c :: following (some rest) from rfl,
            readQuoted_closed hbody hc]
          simp
        · rw [readQuoted_trailing hbody hc hn, positionOf_eq hrest]
          simp [hn, eq_comm]
  · exact absurd hopen h.not_marksGuarded

/-- The reader of one key refuses it just if its quotes are at fault. -/
theorem readToken_eq_error_iff {d : List Marked} {s : Nat} {e : ListInstance.Error} :
    readToken d.length (d.drop s) = .error e ↔ QuoteFault d s e := by
  constructor
  · intro h
    cases hd : d.drop s with
    | nil => simp [hd, readToken] at h
    | cons o ms =>
        have hod : d[s]? = some o := (drop_eq_cons_iff.1 hd).1
        cases ho : QuoteMark.ofChar? o.char with
        | none =>
            rw [hd, readToken] at h
            simp [ho] at h
        | some q =>
            rw [QuoteMark.ofChar?_eq_some_iff] at ho
            rcases exists_closesAt_or_marksGuarded hd ho with
              ⟨_, _, _, _, i, -, -, -, hi, -⟩ | ⟨_, _, _, -, -, -, hopen⟩
            · obtain ⟨n, hn, hcomma, rfl⟩ := (readToken_eq_error_iff_of_closesAt hod ho hi).1 h
              exact .afterQuote hod ho hi hn hcomma
            · rw [readToken_of_marksGuarded hod ho hopen, Except.error.injEq] at h
              subst h
              exact .openQuote hod ho hopen
  · intro h
    cases h with
    | openQuote hod ho hopen => exact readToken_of_marksGuarded hod ho hopen
    | afterQuote hod ho hi hn hcomma =>
        exact (readToken_eq_error_iff_of_closesAt hod ho hi).2 ⟨_, hn, hcomma, rfl⟩

/-- The value of the key that comes first. -/
def firstValue (total : Nat) (ms : List Marked) : Except ListInstance.Error KeyValue :=
  (readToken total ms).bind fun t => KeyValue.ofText (String.ofList t.text)

/-- A key is at fault just if it cannot be read, or its text cannot be given a value. -/
theorem faultAt_iff {d : List Marked} {s : Nat} {e : ListInstance.Error} :
    FaultAt d s e ↔ firstValue d.length (d.drop s) = .error e := by
  rw [firstValue, Except.bind_eq_error_iff]
  constructor
  · intro h
    cases h with
    | quotes h => exact Or.inl (readToken_eq_error_iff.2 h)
    | @value part cs q rest hd hw hodd =>
        refine Or.inr ⟨⟨cs, q, rest⟩, ?_, KeyValue.ofText_eq_error_iff.2 ⟨rfl, hodd⟩⟩
        rw [hd, readToken_append_following hw]
  · rintro (h | ⟨t, ht, h⟩)
    · exact .quotes (readToken_eq_error_iff.1 h)
    · obtain ⟨part, hd, hw⟩ := readToken_eq_ok_iff.1 ht
      obtain ⟨rfl, hodd⟩ := KeyValue.ofText_eq_error_iff.1 h
      exact .value hd hw hodd

/-! ## Rows of keys -/

/-- If the first key is refused, no other one is read. -/
theorem readFrom_of_firstValue {total : Nat} {ms : List Marked} {e : ListInstance.Error}
    (h : firstValue total ms = .error e) : readFrom total ms = .error e := by
  rw [firstValue, Except.bind_eq_error_iff] at h
  rw [readFrom_eq_bind, Except.bind_eq_error_iff]
  refine h.imp_right ?_
  rintro ⟨t, ht, hvalue⟩
  exact ⟨t, ht, Except.bind_eq_error_iff.2 (Or.inl hvalue)⟩

/-- A row is refused for its first key, or the first key is read and the keys after it are
    refused. -/
theorem firstValue_or_rest_of_readFrom {total : Nat} {ms : List Marked} {e : ListInstance.Error}
    (h : readFrom total ms = .error e) :
    firstValue total ms = .error e ∨
      ∃ part k rest, ms = part ++ comma :: rest ∧ Spelled part k ∧
        readFrom total rest = .error e := by
  rw [readFrom_eq_bind, Except.bind_eq_error_iff] at h
  rw [firstValue, Except.bind_eq_error_iff]
  rcases h with htoken | ⟨t, ht, h⟩
  · exact Or.inl (Or.inl htoken)
  rcases Except.bind_eq_error_iff.1 h with hvalue | ⟨value, hvalue, hrest⟩
  · exact Or.inl (Or.inr ⟨t, ht, hvalue⟩)
  rw [Except.map_eq_error_iff] at hrest
  obtain ⟨part, rfl, hw⟩ := readToken_eq_ok_iff.1 ht
  obtain ⟨text, quote, rest⟩ := t
  cases rest with
  | none => exact absurd hrest (by simp)
  | some rest =>
      exact Or.inr ⟨part, ⟨value, String.ofList text, quote⟩, rest, rfl,
        ⟨by simpa using hw, hvalue⟩, hrest⟩

/-- A row is refused just if some of its keys are read, each with the comma after it, and the next
    one is refused. -/
theorem readFrom_eq_error_iff_append {total : Nat} {ms : List Marked} {e : ListInstance.Error} :
    readFrom total ms = .error e ↔
      ∃ parts keys rest, ms = parts.flatMap (· ++ [comma]) ++ rest ∧
        List.Forall₂ Spelled parts keys ∧ firstValue total rest = .error e := by
  constructor
  · intro h
    -- induction on the length, as what follows a comma is no direct part of the list
    induction hn : ms.length using Nat.strongRecOn generalizing ms with
    | _ n ih =>
        rcases firstValue_or_rest_of_readFrom h with hfirst | ⟨part, k, rest, rfl, hk, hrest⟩
        · exact ⟨[], [], ms, rfl, .nil, hfirst⟩
        · have hlt : rest.length < n := by
            simp only [List.length_append, List.length_cons] at hn
            omega
          obtain ⟨parts, keys, last, rfl, hkeys, hlast⟩ := ih rest.length hlt hrest rfl
          exact ⟨part :: parts, k :: keys, last, by simp, .cons hk hkeys, hlast⟩
  · rintro ⟨parts, keys, rest, rfl, hkeys, hrest⟩
    induction hkeys with
    | nil => exact readFrom_of_firstValue hrest
    | @cons part k parts keys hk _ ih =>
        rw [List.flatMap_cons, List.append_assoc, List.append_assoc, List.singleton_append,
          readFrom_cons hk, ih]
        rfl

/-- Every key before `s` is read, and `s` is where the next one starts. -/
def ReadUpTo (d : List Marked) (s : Nat) : Prop :=
  s ≤ d.length ∧ ∃ parts keys, List.Forall₂ Spelled parts keys ∧
    d.take s = parts.flatMap (· ++ [comma])

/-- A key starts where the list does, or after a comma. -/
theorem ReadUpTo.eq_zero_or_comma {d : List Marked} {s : Nat} (h : ReadUpTo d s) :
    s = 0 ∨ ∃ i, s = i + 1 ∧ d[i]? = some comma := by
  obtain ⟨hs, parts, keys, -, htake⟩ := h
  rcases List.eq_nil_or_concat parts with rfl | ⟨parts, part, rfl⟩
  · left
    have hlength := congrArg List.length htake
    rw [List.length_take, Nat.min_eq_left hs] at hlength
    simpa using hlength
  · right
    cases s with
    | zero => simp at htake
    | succ i =>
        refine ⟨i, rfl, ?_⟩
        have hlast : (d.take (i + 1)).getLast? = some comma := by
          rw [htake]
          simp
        rw [List.getLast?_eq_getElem?, List.length_take, Nat.min_eq_left hs,
          Nat.add_sub_cancel, List.getElem?_take_of_lt (Nat.lt_succ_self i)] at hlast
        exact hlast

/-- **A row of keys is refused for the first key at fault, and every key before it is read.** -/
theorem readFrom_eq_error_iff {d : List Marked} {e : ListInstance.Error} :
    readFrom d.length d = .error e ↔ ∃ s, ReadUpTo d s ∧ FaultAt d s e := by
  simp only [readFrom_eq_error_iff_append, faultAt_iff]
  constructor
  · rintro ⟨parts, keys, rest, rfl, hkeys, hrest⟩
    refine ⟨(parts.flatMap (· ++ [comma])).length, ⟨by simp, parts, keys, hkeys, ?_⟩, ?_⟩
    · rw [List.take_left]
    · rw [List.drop_left]
      exact hrest
  · rintro ⟨s, ⟨-, parts, keys, hkeys, htake⟩, hfault⟩
    exact ⟨parts, keys, d.drop s, by rw [← htake, List.take_append_drop], hkeys, hfault⟩

/-- A key list that is spelled out is refused for the first key at fault. -/
theorem readAll_eq_error_iff {raw : List Char} {d : List Marked} (hraw : raw ≠ [])
    (hd : Spells raw d) {e : ListInstance.Error} :
    readAll raw = .error e ↔ ∃ s, ReadUpTo d s ∧ FaultAt d s e := by
  have hne : d ≠ [] := by
    rintro rfl
    exact hraw (Text.Percent.Spells.nil_iff.1 hd)
  rw [readAll_of_decodeWithMarks (Text.Percent.decodeWithMarks_of_spells hd), if_neg hne,
    readFrom_eq_error_iff]

end Restconf.Key
