import Restconf.Key.Basic
import Restconf.Outcome

set_option autoImplicit false

/-! # Reading key lists

The keys of an entry are divided by literal commas; an escaped comma belongs to its key. A key that
starts with a quote mark, escaped or not, runs to the next mark of that kind, and a backslash in
it stands for the character after it.

The reader works on marked characters. A place in the key list is known by how much of the list is
left, so the functions take the length `total` of the whole list. -/

namespace Restconf.Key

open Text.Percent (Marked decodeWithMarks)

/-- The character divides two keys. -/
def separates (m : Marked) : Bool :=
  m.char = ',' && !m.escaped

/-- The place where `rest` starts in a list of `total` characters. -/
def positionOf (total : Nat) (rest : List Marked) : Nat :=
  total - rest.length

/-- A key before its text is given a value. -/
structure Token where
  text : List Char
  quote : Option QuoteMark
  /-- What follows the dividing comma; none after the last key. -/
  rest : Option (List Marked)
  deriving Repr, DecidableEq

/-- The same token with one more character in front of its text. -/
def Token.cons (c : Char) (t : Token) : Token :=
  { t with text := c :: t.text }

/-- Reads a key without quotes: everything up to a dividing comma. -/
def readBare : List Marked → Token
  | [] => ⟨[], none, none⟩
  | m :: ms => if separates m then ⟨[], none, some ms⟩ else (readBare ms).cons m.char

/-- Reads the rest of a quoted key that opened at `start`. -/
def readQuoted (q : QuoteMark) (start total : Nat) :
    List Marked → Except ListInstance.Error Token
  | [] => .error (.openQuote q start)
  | m :: ms =>
    if m.char = '\\' then
      match ms with
      | [] => .error (.openQuote q start)
      | n :: ms' => (readQuoted q start total ms').map (Token.cons n.char)
    else if m.char = q.char then
      match ms with
      | [] => .ok ⟨[], some q, none⟩
      | n :: ms' =>
        if separates n then .ok ⟨[], some q, some ms'⟩
        else .error (.afterQuote n.char (positionOf total ms))
    else (readQuoted q start total ms).map (Token.cons m.char)

/-- Reads one key. -/
def readToken (total : Nat) (ms : List Marked) : Except ListInstance.Error Token :=
  match ms with
  | [] => .ok (readBare [])
  | m :: rest =>
    match QuoteMark.ofChar? m.char with
    | some q => readQuoted q (positionOf total ms) total rest
    | none => .ok (readBare ms)

/-! ## Each key is shorter than what it is read from -/

theorem length_rest_readBare {ms rest : List Marked} (h : (readBare ms).rest = some rest) :
    rest.length < ms.length := by
  induction ms with
  | nil => simp [readBare] at h
  | cons m ms ih =>
    unfold readBare at h
    split at h
    · simp only [Option.some.injEq] at h
      subst h
      simp
    · have := ih h
      simp only [List.length_cons]
      omega

theorem length_rest_readQuoted {q : QuoteMark} {start total : Nat} {ms rest : List Marked}
    {t : Token} (h : readQuoted q start total ms = .ok t) (hr : t.rest = some rest) :
    rest.length < ms.length := by
  fun_induction readQuoted q start total ms generalizing t with
  | case1 => simp at h
  | case2 => simp at h
  | case3 m hm n ms' ih =>
    obtain ⟨u, hu, rfl⟩ := Except.map_eq_ok_iff.1 h
    have := ih hu hr
    simp only [List.length_cons]
    omega
  | case4 =>
    simp only [Except.ok.injEq] at h
    subst h
    simp at hr
  | case5 m hm hq n ms' hn =>
    simp only [Except.ok.injEq] at h
    subst h
    simp only [Option.some.injEq] at hr
    subst hr
    simp only [List.length_cons]
    omega
  | case6 => simp at h
  | case7 m ms hm hq ih =>
    obtain ⟨u, hu, rfl⟩ := Except.map_eq_ok_iff.1 h
    have := ih hu hr
    simp only [List.length_cons]
    omega

theorem length_rest_readToken {total : Nat} {ms rest : List Marked} {t : Token}
    (h : readToken total ms = .ok t) (hr : t.rest = some rest) : rest.length < ms.length := by
  unfold readToken at h
  split at h
  · simp only [Except.ok.injEq] at h
    subst h
    exact length_rest_readBare hr
  · split at h
    · have := length_rest_readQuoted h hr
      simp only [List.length_cons]
      omega
    · simp only [Except.ok.injEq] at h
      subst h
      exact length_rest_readBare hr

/-! ## Whole lists -/

/-- Reads the keys from `ms` on, each with its value. A key is given its value before the next
    one is read. -/
def readFrom (total : Nat) (ms : List Marked) : Except ListInstance.Error (List Key) :=
  match h : readToken total ms with
  | .error e => .error e
  | .ok t =>
    match KeyValue.ofText (String.ofList t.text) with
    | .error e => .error e
    | .ok value =>
      let key : Key := ⟨value, String.ofList t.text, t.quote⟩
      match hr : t.rest with
      | none => .ok [key]
      | some rest =>
        have : rest.length < ms.length := length_rest_readToken h hr
        (readFrom total rest).map (key :: ·)
termination_by ms.length

/-- Reads a key list. -/
def readAll (raw : List Char) : Except ListInstance.Error (List Key) :=
  if raw.isEmpty then .error .noKeys
  else
    match decodeWithMarks raw with
    | none => .error (.badEscape (String.ofList raw))
    | some ms => readFrom ms.length ms

end Restconf.Key
