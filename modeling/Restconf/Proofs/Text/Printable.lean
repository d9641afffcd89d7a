import Restconf.Proofs.Text.Cut
import Restconf.Proofs.Text.Percent
import Restconf.Text.Case

set_option autoImplicit false

/-! # Printable text

A header or a URL takes a text as it is only if it is printable ASCII without spaces, does not hold
the characters that end the part of a URL in which it stands (`IsPrintable`), and has nothing after
a `%` but the digits of an escape (`Percent.EscapesComplete`). `IsPathText` is both for the path of
a URL. These are kept when texts are put together, and every percent-encoded text has them, whatever
was encoded (`isPathText_encode`). -/

namespace Restconf.Text

/-- Printable ASCII characters, without the space and without those barred. -/
def IsPrintable (barred cs : List Char) : Prop :=
  ∀ c ∈ cs, 0x21 ≤ c.toNat ∧ c.toNat ≤ 0x7E ∧ c ∉ barred

instance (barred cs : List Char) : Decidable (IsPrintable barred cs) :=
  List.decidableBAll _ cs

/-- Printable text that ends no path of a URL and whose escapes are complete. -/
structure IsPathText (cs : List Char) : Prop where
  printable : IsPrintable ['?', '#'] cs
  escapes : Percent.EscapesComplete cs

/-! ## Texts that are put together -/

theorem isPrintable_append {barred a b : List Char} :
    IsPrintable barred (a ++ b) ↔ IsPrintable barred a ∧ IsPrintable barred b :=
  List.forall_mem_append

theorem isPrintable_cons {barred cs : List Char} {c : Char} :
    IsPrintable barred (c :: cs) ↔ IsPrintable barred [c] ∧ IsPrintable barred cs :=
  isPrintable_append (a := [c])

theorem IsPrintable.mono {barred barred' cs : List Char} (h : IsPrintable barred cs)
    (hsub : barred' ⊆ barred) : IsPrintable barred' cs := by
  intro c hc
  obtain ⟨hlow, hhigh, hnot⟩ := h c hc
  exact ⟨hlow, hhigh, fun hmem => hnot (hsub hmem)⟩

theorem isPrintable_intercalate {barred sep : List Char} {rows : List (List Char)}
    (hsep : IsPrintable barred sep) (h : ∀ row ∈ rows, IsPrintable barred row) :
    IsPrintable barred (sep.intercalate rows) := by
  intro c hc
  rcases mem_intercalate hc with hc | ⟨row, hrow, hc⟩
  · exact hsep c hc
  · exact h row hrow c hc

theorem Percent.EscapesComplete.append {a b : List Char} (ha : EscapesComplete a)
    (hb : EscapesComplete b) : EscapesComplete (a ++ b) := by
  intro x y hxy
  rcases List.append_eq_append_iff.1 hxy with ⟨x', -, rfl⟩ | ⟨y', rfl, hy⟩
  · exact hb x' y rfl
  · cases y' with
    | nil => exact hb [] y hy.symm
    | cons c y' =>
        -- the escape starts in the front part, and so ends there
        obtain ⟨rfl, rfl⟩ := List.cons.inj hy
        obtain ⟨hi, lo, rest, rfl, hhi, hlo⟩ := ha x y' rfl
        exact ⟨hi, lo, rest ++ b, rfl, hhi, hlo⟩

theorem Percent.escapesComplete_of_not_mem {cs : List Char} (h : '%' ∉ cs) :
    EscapesComplete cs := by
  rintro a b rfl
  exact absurd (List.mem_append_right a List.mem_cons_self) h

theorem isPathText_nil : IsPathText [] :=
  ⟨fun _ hc => absurd hc List.not_mem_nil, Percent.escapesComplete_of_not_mem List.not_mem_nil⟩

theorem IsPathText.append {a b : List Char} (ha : IsPathText a) (hb : IsPathText b) :
    IsPathText (a ++ b) :=
  ⟨isPrintable_append.2 ⟨ha.printable, hb.printable⟩, ha.escapes.append hb.escapes⟩

/-- A printable character that starts no escape goes in front of any path text. -/
theorem IsPathText.cons {c : Char} {cs : List Char} (h : IsPathText cs)
    (hc : IsPrintable ['?', '#', '%'] [c]) : IsPathText (c :: cs) := by
  refine IsPathText.append (a := [c]) ⟨hc.mono (by simp), ?_⟩ h
  refine Percent.escapesComplete_of_not_mem fun hmem => ?_
  obtain rfl := List.mem_singleton.1 hmem
  exact absurd hc (by decide)

theorem isPathText_flatMap {α : Type} {f : α → List Char} {xs : List α}
    (h : ∀ x ∈ xs, IsPathText (f x)) : IsPathText (xs.flatMap f) := by
  induction xs with
  | nil => exact isPathText_nil
  | cons x xs ih =>
      obtain ⟨hx, hxs⟩ := List.forall_mem_cons.1 h
      exact hx.append (ih hxs)

theorem isPathText_intercalate {sep : List Char} {rows : List (List Char)} (hsep : IsPathText sep)
    (h : ∀ row ∈ rows, IsPathText row) : IsPathText (sep.intercalate rows) := by
  induction rows with
  | nil => exact isPathText_nil
  | cons row rows ih =>
      obtain ⟨hrow, hrows⟩ := List.forall_mem_cons.1 h
      cases rows with
      | nil => simpa using hrow
      | cons row' rows =>
          rw [List.intercalate_cons_cons]
          exact (hrow.append hsep).append (ih hrows)

/-! ## Characters of names -/

/-- Letters, digits and the marks of names can stand anywhere in a URL. -/
theorem isPrintable_of_namePart {c : Char}
    (h : c.isAlphanum = true ∨ c = '-' ∨ c = '_' ∨ c = '.') : IsPrintable ['?', '#', '%'] [c] := by
  rcases h with h | rfl | rfl | rfl
  · intro d hd
    obtain rfl := List.mem_singleton.1 hd
    have hnot : d ∉ ['?', '#', '%'] := by
      simp only [List.mem_cons, List.not_mem_nil, or_false]
      rintro (rfl | rfl | rfl)
      all_goals exact absurd h (by decide)
    rw [isAlphanum_iff] at h
    change ((65 ≤ d.toNat ∧ d.toNat ≤ 90) ∨ (97 ≤ d.toNat ∧ d.toNat ≤ 122)) ∨
      (48 ≤ d.toNat ∧ d.toNat ≤ 57) at h
    exact ⟨by omega, by omega, hnot⟩
  · decide
  · decide
  · decide

/-! ## Encoded texts -/

/-- What an escape set does not keep, and no escape consists of, is in no encoded text. -/
theorem isPrintable_encode {set : Percent.EscapeSet} {barred : List Char}
    (hspace : ' ' ∈ set.members)
    (hbarred : ∀ c ∈ barred, set.keeps c = false ∧ c ≠ '%' ∧ Hex.value? c = none)
    (cs : List Char) : IsPrintable barred (Percent.encode set cs) := by
  have hdigit : ∀ n, n < 16 →
      0x21 ≤ (Hex.digitUpper n).toNat ∧ (Hex.digitUpper n).toNat ≤ 0x7E := by
    decide
  intro c hc
  have hnot : c ∉ barred := by
    intro hmem
    obtain ⟨hkeeps, hpercent, hvalue⟩ := hbarred c hmem
    rcases Percent.mem_encode hc with h | h | ⟨n, hn, rfl⟩
    · exact absurd (hkeeps.symm.trans h) (by simp)
    · exact hpercent h
    · exact absurd (hvalue.symm.trans (Hex.value?_digitUpper n hn)) (by simp)
  rcases Percent.mem_encode hc with hkeeps | rfl | ⟨n, hn, rfl⟩
  · have hne : c ≠ ' ' := by
      rintro rfl
      simp [Percent.EscapeSet.keeps, hspace] at hkeeps
    have hne' : c.toNat ≠ 0x20 := fun h => hne (Char.toNat_inj.1 h)
    simp only [Percent.EscapeSet.keeps, Bool.and_eq_true, decide_eq_true_eq] at hkeeps
    exact ⟨by omega, by omega, hnot⟩
  · exact ⟨by decide, by decide, hnot⟩
  · exact ⟨(hdigit n hn).1, (hdigit n hn).2, hnot⟩

/-- **Whatever is encoded, the text can stand in a path.** -/
theorem isPathText_encode {set : Percent.EscapeSet} (hspace : ' ' ∈ set.members)
    (hquery : '?' ∈ set.members) (hfragment : '#' ∈ set.members) (hpercent : '%' ∈ set.members)
    (cs : List Char) : IsPathText (Percent.encode set cs) := by
  refine ⟨isPrintable_encode hspace ?_ cs, ?_⟩
  · have hkeeps : ∀ c, c ∈ set.members → set.keeps c = false := by
      intro c hc
      simp [Percent.EscapeSet.keeps, hc]
    simp only [List.forall_mem_cons, List.not_mem_nil, false_implies, implies_true, and_true]
    exact ⟨⟨hkeeps _ hquery, by decide⟩, hkeeps _ hfragment, by decide⟩
  · exact (Percent.exists_spells_iff.1 ⟨_, Percent.spells_encode hpercent cs⟩).1

end Restconf.Text
