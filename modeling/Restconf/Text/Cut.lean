set_option autoImplicit false

/-! # Cutting and trimming character lists

Every grammar of this library starts by cutting a text: a URL at its first `#`, a path at each
`/`, a query pair at its first `=`. This file has the cut at a first delimiter (`cut?`) and the
trim of both ends (`trim`); splitting at every delimiter is `List.splitOn`.

`cut?_eq_some_iff` says that a cut loses nothing and takes the first delimiter. -/

namespace Restconf.Text

/-! ## The first delimiter -/

/-- The parts before and after the first `d`; none if the text has no `d`. -/
def cut? (d : Char) : List Char → Option (List Char × List Char)
  | [] => none
  | c :: cs => if c = d then some ([], cs) else (cut? d cs).map fun (a, b) => (c :: a, b)

theorem cut?_eq_some_iff {d : Char} {cs a b : List Char} :
    cut? d cs = some (a, b) ↔ cs = a ++ d :: b ∧ d ∉ a := by
  induction cs generalizing a b with
  | nil => simp [cut?]
  | cons c cs ih =>
    by_cases h : c = d
    · subst h
      cases a with
      | nil => simp [cut?]
      | cons x xs => simp [cut?]; rintro rfl; simp
    · cases a with
      | nil => simp [cut?, h]
      | cons x xs =>
        simp only [cut?, h, if_false, Option.map_eq_some_iff, Prod.exists, Prod.mk.injEq,
          List.cons.injEq, ih, List.cons_append, List.mem_cons, not_or]
        constructor
        · rintro ⟨p, q, ⟨rfl, hp⟩, ⟨rfl, rfl⟩, rfl⟩
          exact ⟨⟨rfl, rfl⟩, fun e => h e.symm, hp⟩
        · rintro ⟨⟨rfl, rfl⟩, -, hp⟩
          exact ⟨xs, b, ⟨rfl, hp⟩, ⟨rfl, rfl⟩, rfl⟩

theorem cut?_eq_none_iff {d : Char} {cs : List Char} : cut? d cs = none ↔ d ∉ cs := by
  induction cs with
  | nil => simp [cut?]
  | cons c cs ih =>
    by_cases h : c = d
    · simp [cut?, h]
    · simp [cut?, h, ih, Ne.symm h]

/-- The part before the first `d`, or the whole text if there is none. -/
def before (d : Char) (cs : List Char) : List Char :=
  cs.takeWhile (· ≠ d)

theorem before_eq_cut? (d : Char) (cs : List Char) :
    before d cs = ((cut? d cs).map Prod.fst).getD cs := by
  induction cs with
  | nil => rfl
  | cons c cs ih =>
    rw [before] at ih
    by_cases h : c = d
    · simp [before, cut?, h]
    · rw [before, List.takeWhile_cons_of_pos (by simpa using h), ih, cut?, if_neg h]
      cases cut? d cs <;> rfl

/-! ## Trimming -/

/-- The text without the longest runs of `drop` characters at its two ends. -/
def trim (drop : Char → Bool) (cs : List Char) : List Char :=
  ((cs.dropWhile drop).reverse.dropWhile drop).reverse

/-- The text without the slashes at its two ends. -/
def trimSlashes (text : String) : String :=
  String.ofList (trim (· = '/') text.toList)

end Restconf.Text
