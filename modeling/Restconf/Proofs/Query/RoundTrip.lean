import Restconf.Outcome
import Restconf.Proofs.Text.Cut
import Restconf.Proofs.Text.Percent
import Restconf.Query.Basic
import Restconf.Text.Case

set_option autoImplicit false

/-! # Written queries read back

A query with valid names is written so that it reads back as it is (`read_render`), and a query that
was read has valid names (`wellNamed_of_read`), so the queries that read back are just those with
valid names (`parse_toString_eq_ok_iff`). An empty value is written without `=` and comes back
empty; the characters that divide pairs, names and values are escaped in values and cannot stand in
names. -/

namespace Restconf.Query

open Text

/-- Every parameter has a name that can be read. -/
def WellNamed (q : Query) : Prop :=
  ∀ pair ∈ q.pairs, nameFault? pair.1.toList = none

/-! ## Names -/

theorem nameFault?_eq_none_iff {name : List Char} :
    nameFault? name = none ↔ name ≠ [] ∧ ∀ c ∈ name, isNameChar c = true := by
  unfold nameFault?
  cases name with
  | nil => simp
  | cons c cs => simp

theorem not_mem_name {name : List Char} (h : nameFault? name = none) {c : Char}
    (hc : isNameChar c = false) : c ∉ name := by
  intro hmem
  rw [(nameFault?_eq_none_iff.1 h).2 c hmem] at hc
  exact absurd hc (by simp)

/-! ## One parameter -/

theorem not_mem_encode {c : Char} (h : c ∈ ['&', '=', '#']) (value : List Char) :
    c ∉ Percent.encode .query value := by
  intro hmem
  simp only [List.mem_cons, List.not_mem_nil, or_false] at h
  rcases Percent.mem_encode hmem with hkeeps | rfl | ⟨n, hn, rfl⟩
  · rcases h with rfl | rfl | rfl <;> exact absurd hkeeps (by decide)
  · exact absurd h (by decide)
  · have hdigit : ∀ n, n < 16 → ¬ (Hex.digitUpper n = '&' ∨ Hex.digitUpper n = '=' ∨
        Hex.digitUpper n = '#') := by
      decide
    exact hdigit n hn h

theorem renderPair_empty (name : String) : renderPair (name, "") = name.toList := rfl

theorem renderPair_of_ne {value : String} (h : value ≠ "") (name : String) :
    renderPair (name, value) = name.toList ++ '=' :: Percent.encode .query value.toList := by
  have hvalue : value.isEmpty ≠ true := by simpa using h
  rw [renderPair, if_neg hvalue]

/-- A pair is written without the characters that end it. -/
theorem not_mem_renderPair {c : Char} (h : c ∈ ['&', '#']) {pair : String × String}
    (hname : nameFault? pair.1.toList = none) : c ∉ renderPair pair := by
  obtain ⟨name, value⟩ := pair
  obtain ⟨hpart, hmark, hencode⟩ : isNameChar c = false ∧ c ≠ '=' ∧ c ∈ ['&', '=', '#'] := by
    simp only [List.mem_cons, List.not_mem_nil, or_false] at h
    rcases h with rfl | rfl <;> decide
  have hfront : c ∉ name.toList := not_mem_name hname hpart
  by_cases hvalue : value = ""
  · subst hvalue
    rw [renderPair_empty]
    exact hfront
  · rw [renderPair_of_ne hvalue]
    simp [hfront, hmark, not_mem_encode hencode]

theorem renderPair_ne_nil {pair : String × String} (hname : nameFault? pair.1.toList = none) :
    renderPair pair ≠ [] := by
  obtain ⟨name, value⟩ := pair
  have hne : name.toList ≠ [] := (nameFault?_eq_none_iff.1 hname).1
  by_cases hvalue : value = ""
  · subst hvalue
    rw [renderPair_empty]
    exact hne
  · rw [renderPair_of_ne hvalue]
    simp

theorem readPair_renderPair {pair : String × String} (hname : nameFault? pair.1.toList = none) :
    readPair (renderPair pair) = .ok pair := by
  obtain ⟨name, value⟩ := pair
  have hmark : '=' ∉ name.toList := not_mem_name hname (by decide)
  by_cases hvalue : value = ""
  · have hdecode : Percent.decode [] = some [] := rfl
    subst hvalue
    rw [renderPair_empty, readPair, cut?_eq_none_iff.2 hmark]
    simp only [Option.getD_none, hname, hdecode, String.ofList_toList, String.ofList_nil]
  · have hcut : cut? '=' (name.toList ++ '=' :: Percent.encode .query value.toList) =
        some (name.toList, Percent.encode .query value.toList) :=
      cut?_eq_some_iff.2 ⟨rfl, hmark⟩
    have hdecode : Percent.decode (Percent.encode .query value.toList) = some value.toList :=
      Percent.decode_encode (by decide) value.toList
    rw [renderPair_of_ne hvalue, readPair, hcut]
    simp only [Option.getD_some, hname, hdecode, String.ofList_toList]

/-! ## All parameters -/

theorem readPairs_map_renderPair {pairs : List (String × String)}
    (h : ∀ pair ∈ pairs, nameFault? pair.1.toList = none) :
    readPairs (pairs.map renderPair) = .ok pairs := by
  induction pairs with
  | nil => rfl
  | cons pair pairs ih =>
      obtain ⟨hpair, hpairs⟩ := List.forall_mem_cons.1 h
      rw [List.map_cons, readPairs, readPair_renderPair hpair, ih hpairs]
      rfl

/-- The pairs of a written query are those that were written. -/
theorem splitOn_render {q : Query} (h : q.WellNamed) :
    ((q.render.splitOn '&').filter (!·.isEmpty)) = q.pairs.map renderPair := by
  by_cases hne : q.pairs = []
  · simp [render, hne]
  · have hsplit : q.render.splitOn '&' = q.pairs.map renderPair := by
      refine splitOn_eq_iff.2 ⟨by simpa using hne, rfl, ?_⟩
      intro row hrow
      obtain ⟨pair, hpair, rfl⟩ := List.mem_map.1 hrow
      exact not_mem_renderPair (by decide) (h pair hpair)
    rw [hsplit, List.filter_eq_self]
    intro row hrow
    obtain ⟨pair, hpair, rfl⟩ := List.mem_map.1 hrow
    simpa using renderPair_ne_nil (h pair hpair)

/-- **A query with valid names is read from its own text.** -/
theorem read_render {q : Query} (h : q.WellNamed) : read q.render = .ok q := by
  rw [read, splitOn_render h, readPairs_map_renderPair h]
  rfl

/-- A query is written without the character that starts a fragment. -/
theorem not_mem_render {q : Query} (h : q.WellNamed) : '#' ∉ q.render := by
  intro hmem
  rcases mem_intercalate hmem with hsep | ⟨row, hrow, hc⟩
  · exact absurd hsep (by decide)
  · obtain ⟨pair, hpair, rfl⟩ := List.mem_map.1 hrow
    exact not_mem_renderPair (by decide) (h pair hpair) hc

/-! ## Queries that were read -/

theorem nameFault?_of_readPair {cs : List Char} {pair : String × String}
    (h : readPair cs = .ok pair) : nameFault? pair.1.toList = none := by
  unfold readPair at h
  simp only at h
  split at h
  · exact absurd h (by simp)
  · next hname =>
      split at h
      · rw [← Except.ok.inj h, String.toList_ofList]
        exact hname
      · exact absurd h (by simp)

theorem wellNamed_of_readPairs {rows : List (List Char)} {pairs : List (String × String)}
    (h : readPairs rows = .ok pairs) : ∀ pair ∈ pairs, nameFault? pair.1.toList = none := by
  induction rows generalizing pairs with
  | nil =>
      rw [← Except.ok.inj h]
      simp
  | cons row rows ih =>
      rw [readPairs] at h
      split at h
      · exact absurd h (by simp)
      · next pair hpair =>
          obtain ⟨pairs', hread, rfl⟩ := Except.map_eq_ok_iff.1 h
          exact List.forall_mem_cons.2 ⟨nameFault?_of_readPair hpair, ih hread⟩

/-- **A query that was read has valid names.** -/
theorem wellNamed_of_read {cs : List Char} {q : Query} (h : read cs = .ok q) : q.WellNamed := by
  rw [read] at h
  obtain ⟨pairs, hread, rfl⟩ := Except.map_eq_ok_iff.1 h
  exact wellNamed_of_readPairs hread

/-! ## Queries that read back -/

/-- A name of ASCII letters, digits, hyphens, underscores and points. -/
def IsLegalName (name : String) : Prop :=
  name ≠ "" ∧ ∀ c ∈ name.toList,
    ('a' ≤ c ∧ c ≤ 'z') ∨ ('A' ≤ c ∧ c ≤ 'Z') ∨ ('0' ≤ c ∧ c ≤ '9') ∨ c = '-' ∨ c = '_' ∨ c = '.'

instance (name : String) : Decidable (IsLegalName name) :=
  @instDecidableAnd _ _ inferInstance (List.decidableBAll _ name.toList)

theorem isNameChar_iff {c : Char} :
    isNameChar c = true ↔
      ('a' ≤ c ∧ c ≤ 'z') ∨ ('A' ≤ c ∧ c ≤ 'Z') ∨ ('0' ≤ c ∧ c ≤ '9') ∨
        c = '-' ∨ c = '_' ∨ c = '.' := by
  simp only [isNameChar, Text.isAlphanum_iff, Bool.or_eq_true, decide_eq_true_eq]
  grind

theorem wellNamed_iff {q : Query} : q.WellNamed ↔ ∀ pair ∈ q.pairs, IsLegalName pair.1 := by
  refine forall₂_congr fun pair _ => ?_
  rw [nameFault?_eq_none_iff, IsLegalName, ne_eq, ne_eq, String.toList_eq_nil_iff]
  simp only [isNameChar_iff]

/-- **A query reads back from its own text if and only if each name is legal, whatever its values
    are; a query that was read always does.** -/
theorem parse_toString_eq_ok_iff (q : Query) :
    (parse (toString q) = .ok q ↔ ∀ pair ∈ q.pairs, IsLegalName pair.1) ∧
      ∀ text, parse text = .ok q → parse (toString q) = .ok q := by
  have hback : q.WellNamed → parse (toString q) = .ok q := by
    intro h
    rw [parse, show (toString q).toList = q.render from String.toList_ofList]
    exact read_render h
  refine ⟨?_, fun text h => hback (wellNamed_of_read h)⟩
  rw [← wellNamed_iff]
  exact ⟨wellNamed_of_read, hback⟩

theorem parse_toString_eq_ok_iff_escapedValues :
    parse "&a=%26%3D%25é&b.c&&a=&" = .ok ⟨[("a", "&=%é"), ("b.c", ""), ("a", "")]⟩ ∧
      parse (toString (Query.mk [("a", "&=%é"), ("b.c", ""), ("a", "")])) =
        .ok ⟨[("a", "&=%é"), ("b.c", ""), ("a", "")]⟩ ∧
      parse (toString (Query.mk [("a", "x"), ("b=c", "y")])) ≠
        .ok ⟨[("a", "x"), ("b=c", "y")]⟩ := by
  have hread : parse "&a=%26%3D%25é&b.c&&a=&" =
      .ok ⟨[("a", "&=%é"), ("b.c", ""), ("a", "")]⟩ := by
    decide +kernel
  refine ⟨hread, (parse_toString_eq_ok_iff _).2 _ hread, ?_⟩
  rw [ne_eq, (parse_toString_eq_ok_iff _).1]
  decide

end Restconf.Query
