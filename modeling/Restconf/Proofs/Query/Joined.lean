import Mathlib.Data.List.Forall2
import Restconf.Outcome
import Restconf.Proofs.Text.Cut
import Restconf.Query.Basic

set_option autoImplicit false

/-! # Joined queries

What stands before a `&` is read as if nothing came after it, and what stands after it as if nothing
came before (`parse_append`). So of any texts joined by `&` each is read by itself: the whole has
the parameters of all of them in order (`parse_intercalate_eq_ok_iff`), or is refused as the first
text is that is refused by itself (`parse_intercalate_eq_error_iff`), and empty texts count for
nothing (`parse_intercalate_filter`). -/

namespace Restconf.Query

open Text

/-- The parameters of `q`, then those of `r`. -/
def append (q r : Query) : Query :=
  ⟨q.pairs ++ r.pairs⟩

@[simp] theorem append_empty (q : Query) : q.append empty = q := by
  simp [append, empty]

@[simp] theorem empty_append (q : Query) : empty.append q = q := by
  simp [append, empty]

/-! ## Two queries -/

theorem readPairs_append (rows rows' : List (List Char)) :
    readPairs (rows ++ rows') =
      (readPairs rows).bind fun pairs => (readPairs rows').map (pairs ++ ·) := by
  induction rows with
  | nil =>
      rw [List.nil_append, readPairs, Except.bind]
      cases readPairs rows' <;> rfl
  | cons row rows ih =>
      rw [List.cons_append, readPairs, readPairs]
      cases readPair row with
      | error e => rfl
      | ok pair =>
          simp only [ih]
          cases readPairs rows with
          | error e => rfl
          | ok pairs => cases readPairs rows' <;> rfl

theorem read_append_cons (front back : List Char) :
    read (front ++ '&' :: back) = (read front).bind fun q => (read back).map q.append := by
  rw [read, splitOn_append_cons, List.filter_append, readPairs_append, read, read]
  cases readPairs ((front.splitOn '&').filter (!·.isEmpty)) with
  | error e => rfl
  | ok pairs => cases readPairs ((back.splitOn '&').filter (!·.isEmpty)) <;> rfl

/-- **The two sides of a `&` are read one after the other, each by itself.** -/
theorem parse_append (a b : String) :
    parse (a ++ "&" ++ b) = (parse a).bind fun q => (parse b).map q.append := by
  have hjoined : (a ++ "&" ++ b).toList = a.toList ++ '&' :: b.toList := by simp
  rw [parse, hjoined, read_append_cons, parse, parse]

/-! ## Many queries -/

theorem parse_empty : parse "" = .ok empty := rfl

theorem parse_intercalate_cons (text : String) (texts : List String) :
    parse ("&".intercalate (text :: texts)) =
      (parse text).bind fun q => (parse ("&".intercalate texts)).map q.append := by
  cases texts with
  | nil =>
      rw [String.intercalate_singleton, String.intercalate_nil, parse_empty]
      cases parse text with
      | error e => rfl
      | ok q => exact congrArg Except.ok q.append_empty.symm
  | cons text' texts => rw [String.intercalate_cons_cons, parse_append]

/-- Joined texts have the parameters of each text in turn. -/
theorem parse_intercalate_eq_ok_iff {texts : List String} {q : Query} :
    parse ("&".intercalate texts) = .ok q ↔
      ∃ qs, List.Forall₂ (fun text r => parse text = .ok r) texts qs ∧
        q.pairs = qs.flatMap pairs := by
  induction texts generalizing q with
  | nil =>
      rw [String.intercalate_nil, parse_empty]
      constructor
      · intro h
        obtain rfl := Except.ok.inj h
        exact ⟨[], .nil, rfl⟩
      · rintro ⟨qs, hqs, hpairs⟩
        obtain rfl := List.forall₂_nil_left_iff.1 hqs
        cases q
        exact congrArg (Except.ok ∘ Query.mk) hpairs.symm
  | cons text texts ih =>
      rw [parse_intercalate_cons]
      constructor
      · intro h
        cases hfirst : parse text with
        | error e =>
            rw [hfirst] at h
            exact absurd h (by simp [Except.bind])
        | ok first =>
            rw [hfirst, Except.bind] at h
            obtain ⟨r, hr, rfl⟩ := Except.map_eq_ok_iff.1 h
            obtain ⟨qs, hqs, hpairs⟩ := ih.1 hr
            exact ⟨first :: qs, .cons hfirst hqs, by rw [append, hpairs, List.flatMap_cons]⟩
      · rintro ⟨qs, hqs, hpairs⟩
        cases hqs with
        | @cons _ first _ qs hfirst hqs =>
            have hrest := ih.2 ⟨qs, hqs, rfl⟩
            rw [hfirst, Except.bind, hrest]
            cases q
            exact congrArg (Except.ok ∘ Query.mk) hpairs.symm

/-- Joined texts are refused for the fault of the first text that is refused by itself. -/
theorem parse_intercalate_eq_error_iff {texts : List String} {e : Error} :
    parse ("&".intercalate texts) = .error e ↔
      ∃ front text back, texts = front ++ text :: back ∧
        (∀ t ∈ front, ∃ q, parse t = .ok q) ∧ parse text = .error e := by
  induction texts with
  | nil => simp [parse_empty]
  | cons text texts ih =>
      rw [parse_intercalate_cons, Except.bind_eq_error_iff]
      simp only [Except.map_eq_error_iff, ih, List.cons_eq_append_iff]
      constructor
      · rintro (hfault | ⟨q, hq, front, text', back, rfl, hfront, hfault⟩)
        · exact ⟨[], text, texts, Or.inl ⟨rfl, rfl⟩, by simp, hfault⟩
        · exact ⟨text :: front, text', back, Or.inr ⟨front, rfl, rfl⟩,
            List.forall_mem_cons.2 ⟨⟨q, hq⟩, hfront⟩, hfault⟩
      · rintro ⟨front, text', back, ⟨rfl, hcons⟩ | ⟨front, rfl, rfl⟩, hfront, hfault⟩
        · obtain ⟨rfl, rfl⟩ := List.cons.inj hcons
          exact Or.inl hfault
        · obtain ⟨⟨q, hq⟩, hfront⟩ := List.forall_mem_cons.1 hfront
          exact Or.inr ⟨q, hq, front, text', back, rfl, hfront, hfault⟩

/-- Empty texts count for nothing, wherever they stand. -/
theorem parse_intercalate_filter (texts : List String) :
    parse ("&".intercalate (texts.filter (· ≠ ""))) = parse ("&".intercalate texts) := by
  induction texts with
  | nil => rfl
  | cons text texts ih =>
      by_cases h : text = ""
      · subst h
        rw [List.filter_cons_of_neg (by simp), ih, parse_intercalate_cons, parse_empty, Except.bind]
        cases parse ("&".intercalate texts) with
        | error e => rfl
        | ok q => exact congrArg Except.ok q.empty_append.symm
      · rw [List.filter_cons_of_pos (by simpa using h), parse_intercalate_cons,
          parse_intercalate_cons, ih]

/-- **A text before a `&` and one after it are read to the parameters of the first and then those of
    the second; if the first is refused so is the whole, for the same fault, and if only the second
    is refused the whole is refused for the fault of the second. Of any texts joined by `&`, empty
    ones count for nothing and each of the others is read by itself, in order, up to the first that
    is refused.** -/
theorem parse_append_ampersand :
    (∀ (a b : String) (q r : Query), parse a = .ok q → parse b = .ok r →
      parse (a ++ "&" ++ b) = .ok ⟨q.pairs ++ r.pairs⟩) ∧
    (∀ (a b : String) (e : Error), parse a = .error e → parse (a ++ "&" ++ b) = .error e) ∧
    (∀ (a b : String) (q : Query) (e : Error), parse a = .ok q → parse b = .error e →
      parse (a ++ "&" ++ b) = .error e) ∧
    ∀ texts : List String,
      parse ("&".intercalate (texts.filter (· ≠ ""))) = parse ("&".intercalate texts) ∧
      (∀ q, parse ("&".intercalate texts) = .ok q ↔
        ∃ qs, List.Forall₂ (fun text r => parse text = .ok r) texts qs ∧
          q.pairs = qs.flatMap pairs) ∧
      ∀ e, parse ("&".intercalate texts) = .error e ↔
        ∃ front text back, texts = front ++ text :: back ∧
          (∀ t ∈ front, ∃ q, parse t = .ok q) ∧ parse text = .error e := by
  refine ⟨?_, ?_, ?_, fun texts => ⟨parse_intercalate_filter texts,
    fun q => parse_intercalate_eq_ok_iff, fun e => parse_intercalate_eq_error_iff⟩⟩
  · intro a b q r ha hb
    rw [parse_append, ha, hb]
    rfl
  · intro a b e ha
    rw [parse_append, ha]
    rfl
  · intro a b q e ha hb
    rw [parse_append, ha, hb]
    rfl

theorem parse_append_ampersand_truncatedEscape :
    parse "x==1&" = .ok ⟨[("x", "=1")]⟩ ∧ parse "&y=%26" = .ok ⟨[("y", "&")]⟩ ∧
    parse "x==1&&&y=%26" = .ok ⟨[("x", "=1"), ("y", "&")]⟩ ∧
    parse "x=%2" = .error (.badEscape "%2") ∧
    parse "x=%2&6=%" = .error (.badEscape "%2") ∧
    parse "x==1&&x=%2" = .error (.badEscape "%2") := by
  obtain ⟨hboth, hfirst, hsecond, -⟩ := parse_append_ampersand
  have ha : parse "x==1&" = .ok ⟨[("x", "=1")]⟩ := by decide +kernel
  have hb : parse "&y=%26" = .ok ⟨[("y", "&")]⟩ := by decide +kernel
  have he : parse "x=%2" = .error (.badEscape "%2") := by decide +kernel
  exact ⟨ha, hb, hboth "x==1&" "&y=%26" _ _ ha hb, he, hfirst "x=%2" "6=%" _ he,
    hsecond "x==1&" "x=%2" _ _ ha he⟩

end Restconf.Query
