import Mathlib.Data.List.DropRight
import Restconf.Text.Cut

set_option autoImplicit false

/-! # Laws of cutting and trimming

The part before a delimiter, the parts between all of them (`splitOn_eq_iff`), and the trim of both
ends, which is done once and for all (`trim_trim`) and leaves no dropped character in front
(`head?_trim`). -/

namespace Restconf.Text

/-! ## Before a delimiter -/

theorem before_eq_self {d : Char} {cs : List Char} (h : d ∉ cs) : before d cs = cs := by
  rw [before_eq_cut?, cut?_eq_none_iff.2 h]
  rfl

theorem before_append {d : Char} {a : List Char} (h : d ∉ a) (b : List Char) :
    before d (a ++ b) = a ++ before d b := by
  refine List.takeWhile_append_of_pos fun c hc => ?_
  simpa using fun e : c = d => h (e ▸ hc)

theorem before_append_cons {d : Char} {a : List Char} (h : d ∉ a) (b : List Char) :
    before d (a ++ d :: b) = a := by
  rw [before_append h]
  simp [before]

theorem not_mem_before (d : Char) (cs : List Char) : d ∉ before d cs := by
  intro h
  have := List.mem_takeWhile_imp h
  simp at this

theorem before_append_dropWhile (d : Char) (cs : List Char) :
    before d cs ++ cs.dropWhile (· ≠ d) = cs :=
  List.takeWhile_append_dropWhile

/-- A text is taken apart in one way at its first delimiter. -/
theorem before_eq_and_dropWhile_eq_iff {d : Char} {cs a b : List Char} (ha : d ∉ a) :
    before d cs = a ∧ cs.dropWhile (· ≠ d) = b ↔
      cs = a ++ b ∧ (b = [] ∨ ∃ more, b = d :: more) := by
  constructor
  · rintro ⟨rfl, rfl⟩
    refine ⟨(before_append_dropWhile d cs).symm, ?_⟩
    have hhead := List.head?_dropWhile_not (· ≠ d) cs
    cases hb : cs.dropWhile (· ≠ d) with
    | nil => exact Or.inl rfl
    | cons c more =>
        rw [hb] at hhead
        obtain rfl : c = d := by simpa using hhead
        exact Or.inr ⟨more, rfl⟩
  · rintro ⟨rfl, hb⟩
    have hpos : ∀ c ∈ a, (c ≠ d : Bool) = true := by
      intro c hc
      simpa using fun e : c = d => ha (e ▸ hc)
    rw [before_append ha, List.dropWhile_append_of_pos hpos]
    rcases hb with rfl | ⟨more, rfl⟩
    · simp [before]
    · simp [before]

/-- What comes before the first delimiter is in front of the cut. -/
theorem cut?_append {d : Char} {a : List Char} (h : d ∉ a) (b : List Char) :
    cut? d (a ++ b) = (cut? d b).map fun parts => (a ++ parts.1, parts.2) := by
  cases hb : cut? d b with
  | none =>
      rw [cut?_eq_none_iff] at hb
      exact cut?_eq_none_iff.2 (by simp [h, hb])
  | some parts =>
      obtain ⟨rfl, hd⟩ := cut?_eq_some_iff.1 hb
      exact cut?_eq_some_iff.2 ⟨by simp, by simp [h, hd]⟩

/-- A text has one first delimiter. -/
theorem append_cons_inj {d : Char} {a a' b b' : List Char} (ha : d ∉ a) (ha' : d ∉ a')
    (h : a ++ d :: b = a' ++ d :: b') : a = a' ∧ b = b' := by
  have hcut : cut? d (a ++ d :: b) = some (a, b) := cut?_eq_some_iff.2 ⟨rfl, ha⟩
  rw [h, cut?_eq_some_iff.2 ⟨rfl, ha'⟩, Option.some.injEq, Prod.mk.injEq] at hcut
  exact ⟨hcut.1.symm, hcut.2.symm⟩

/-! ## Between delimiters -/

theorem not_mem_of_mem_splitOn {d : Char} {cs token : List Char} (h : token ∈ cs.splitOn d) :
    d ∉ token := by
  induction cs generalizing token with
  | nil =>
      obtain rfl : token = [] := by simpa using h
      exact List.not_mem_nil
  | cons c cs ih =>
      rw [List.splitOn_cons_eq_if_modifyHead] at h
      split at h
      · rcases List.mem_cons.1 h with rfl | h
        · exact List.not_mem_nil
        · exact ih h
      · next hc =>
          cases hs : cs.splitOn d with
          | nil => exact absurd hs (List.splitOn_ne_nil d cs)
          | cons first rest =>
              rw [hs, List.modifyHead_cons] at h
              rcases List.mem_cons.1 h with rfl | h
              · have hfirst : d ∉ first := ih (by rw [hs]; exact List.mem_cons_self)
                simp only [List.mem_cons, not_or]
                exact ⟨fun e => hc (by simp [e]), hfirst⟩
              · exact ih (by rw [hs]; exact List.mem_cons_of_mem _ h)

/-- A change of characters that leaves the delimiter alone changes each token by itself. -/
theorem splitOn_map {d : Char} {f : Char → Char} (h : ∀ c, f c = d ↔ c = d) (cs : List Char) :
    (cs.map f).splitOn d = (cs.splitOn d).map (List.map f) := by
  induction cs with
  | nil => rfl
  | cons c cs ih =>
      rw [List.map_cons, List.splitOn_cons_eq_if_modifyHead, List.splitOn_cons_eq_if_modifyHead, ih]
      by_cases hc : c = d
      · simp [hc, (h d).2 rfl]
      · have hfc : f c ≠ d := fun e => hc ((h c).1 e)
        obtain ⟨first, rest, hsplit⟩ := List.exists_cons_of_ne_nil (List.splitOn_ne_nil d cs)
        simp [hc, hfc, hsplit]

/-- **Splitting and joining are inverse on tokens without the delimiter.** -/
theorem splitOn_eq_iff {d : Char} {cs : List Char} {tokens : List (List Char)} :
    cs.splitOn d = tokens ↔
      tokens ≠ [] ∧ cs = [d].intercalate tokens ∧ ∀ token ∈ tokens, d ∉ token := by
  constructor
  · rintro rfl
    exact ⟨List.splitOn_ne_nil d cs, (List.intercalate_splitOn d).symm,
      fun token h => not_mem_of_mem_splitOn h⟩
  · rintro ⟨hne, rfl, h⟩
    exact List.splitOn_intercalate d h hne

/-- What stands before a delimiter is split apart from what stands after it. -/
theorem splitOn_append_cons (d : Char) (front back : List Char) :
    (front ++ d :: back).splitOn d = front.splitOn d ++ back.splitOn d :=
  List.splitOnP_append_cons front back (beq_self_eq_true d)

/-- A row of tokens, each with the delimiter in front, is that delimiter and the joined tokens. -/
theorem flatMap_cons_eq (d : Char) {tokens : List (List Char)} (h : tokens ≠ []) :
    tokens.flatMap (d :: ·) = d :: [d].intercalate tokens := by
  induction tokens with
  | nil => exact absurd rfl h
  | cons token tokens ih =>
      cases tokens with
      | nil => simp
      | cons token' tokens =>
          rw [List.flatMap_cons, ih (List.cons_ne_nil _ _), List.intercalate_cons_cons]
          simp

theorem mem_intercalate {c : Char} {sep : List Char} {rows : List (List Char)}
    (h : c ∈ sep.intercalate rows) : c ∈ sep ∨ ∃ row ∈ rows, c ∈ row := by
  induction rows with
  | nil => exact absurd h List.not_mem_nil
  | cons row rows ih =>
      cases rows with
      | nil => exact Or.inr ⟨row, List.mem_cons_self, by simpa using h⟩
      | cons row' rows =>
          rw [List.intercalate_cons_cons, List.mem_append, List.mem_append] at h
          rcases h with (h | h) | h
          · exact Or.inr ⟨row, List.mem_cons_self, h⟩
          · exact Or.inl h
          · rcases ih h with h | ⟨r, hr, hc⟩
            · exact Or.inl h
            · exact Or.inr ⟨r, List.mem_cons_of_mem _ hr, hc⟩

/-! ## Trimming -/

theorem trim_eq_rdropWhile (drop : Char → Bool) (cs : List Char) :
    trim drop cs = (cs.dropWhile drop).rdropWhile drop :=
  rfl

/-- No dropped character is left in front. -/
theorem head?_trim {drop : Char → Bool} {cs : List Char} {c : Char}
    (h : (trim drop cs).head? = some c) : drop c = false := by
  -- what is left after the trim of the end is a front part of what was left before it
  rw [trim_eq_rdropWhile] at h
  obtain ⟨rest, hrest⟩ := List.rdropWhile_prefix drop (l := cs.dropWhile drop)
  have hhead : (cs.dropWhile drop).head? = some c := by
    rw [← hrest, List.head?_append, h]
    rfl
  have := List.head?_dropWhile_not drop cs
  rw [hhead] at this
  simpa using this

theorem trim_trim (drop : Char → Bool) (cs : List Char) :
    trim drop (trim drop cs) = trim drop cs := by
  -- nothing is left to drop in front, and the trim of the end is done once and for all
  have hself : (trim drop cs).dropWhile drop = trim drop cs := by
    cases h : trim drop cs with
    | nil => rfl
    | cons c rest =>
        have hc : drop c = false := head?_trim (by rw [h]; rfl)
        simp [hc]
  rw [trim_eq_rdropWhile, hself, trim_eq_rdropWhile, List.rdropWhile_idempotent]

theorem dropWhile_eq_self {drop : Char → Bool} {cs : List Char}
    (h : ∀ c, cs.head? = some c → drop c = false) : cs.dropWhile drop = cs := by
  cases cs with
  | nil => rfl
  | cons c cs => exact List.dropWhile_cons_of_neg (by simp [h c rfl])

/-- A text that has no dropped character at its ends is what is left of it with such characters
    around it. -/
theorem trim_append {drop : Char → Bool} {front cs back : List Char} (hne : cs ≠ [])
    (hfront : ∀ c ∈ front, drop c = true) (hback : ∀ c ∈ back, drop c = true)
    (hfirst : ∀ c, cs.head? = some c → drop c = false)
    (hlast : ∀ c, cs.getLast? = some c → drop c = false) :
    trim drop (front ++ cs ++ back) = cs := by
  have hstart : (cs ++ back).dropWhile drop = cs ++ back := by
    refine dropWhile_eq_self fun c hc => hfirst c ?_
    rwa [List.head?_append_of_ne_nil cs hne] at hc
  have hend : cs.reverse.dropWhile drop = cs.reverse := by
    refine dropWhile_eq_self fun c hc => hlast c ?_
    rwa [List.head?_reverse] at hc
  have hback' : ∀ c ∈ back.reverse, drop c = true := by
    intro c hc
    exact hback c (List.mem_reverse.1 hc)
  rw [trim, List.append_assoc, List.dropWhile_append_of_pos hfront, hstart, List.reverse_append,
    List.dropWhile_append_of_pos hback', hend, List.reverse_reverse]

theorem toList_trimSlashes (text : String) :
    (trimSlashes text).toList = trim (· = '/') text.toList :=
  String.toList_ofList

theorem trimSlashes_trimSlashes (text : String) :
    trimSlashes (trimSlashes text) = trimSlashes text := by
  rw [trimSlashes, toList_trimSlashes, trim_trim]
  rfl

end Restconf.Text
