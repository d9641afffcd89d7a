set_option autoImplicit false

/-! # Identifiers

Modules, containers, lists and leaves are named by identifiers:

```text
identifier = (ALPHA / "_") *(ALPHA / DIGIT / "_" / "-" / ".")
```

`Identifier.parse` accepts exactly these texts and otherwise says which character is at fault. -/

namespace Restconf

namespace Identifier

/-- The character may open an identifier. -/
def isStart (c : Char) : Bool :=
  c.isAlpha || c = '_'

/-- The character may stand in an identifier. -/
def isPart (c : Char) : Bool :=
  c.isAlphanum || c = '_' || c = '-' || c = '.'

theorem isPart_of_isStart {c : Char} (h : isStart c = true) : isPart c = true := by
  simp only [isStart, isPart, Char.isAlphanum, Bool.or_eq_true] at h ⊢
  rcases h with h | h <;> simp [h]

/-- Why a text is not an identifier. -/
inductive Error where
  | empty
  /-- The first character may stand in an identifier but not open one. -/
  | badStart (found : Char)
  /-- The first character that may not stand in an identifier, with its place. -/
  | badChar (char : Char) (position : Nat)
  deriving Repr, DecidableEq

/-- The wording of an error. -/
def Error.message : Error → String
  | .empty => "identifier cannot be empty"
  | .badStart found => s!"identifier must start with a letter or underscore, found '{found}'"
  | .badChar char position =>
    s!"invalid character '{char}' at position {position}; " ++
      "only letters, digits, '_', '-' and '.' allowed"

/-- The first character that may not stand in an identifier; places count from `position`. -/
def strayChar? (position : Nat) : List Char → Option Error
  | [] => none
  | c :: cs => if isPart c then strayChar? (position + 1) cs else some (.badChar c position)

/-- What keeps a text from being an identifier; none if it is one. -/
def fault? : List Char → Option Error
  | [] => some .empty
  | c :: cs =>
    if !isPart c then some (.badChar c 0)
    else if !isStart c then some (.badStart c)
    else strayChar? 1 cs

end Identifier

/-- A text that is an identifier. -/
structure Identifier where
  text : String
  wellFormed : Identifier.fault? text.toList = none
  deriving Repr, DecidableEq

namespace Identifier

instance : ToString Identifier := ⟨text⟩

/-- The characters of an identifier. -/
def chars (id : Identifier) : List Char :=
  id.text.toList

@[ext] theorem ext {a b : Identifier} (h : a.text = b.text) : a = b := by
  cases a; cases b; simp_all

/-- Reads a text as an identifier. -/
def parse (text : String) : Except Error Identifier :=
  match h : fault? text.toList with
  | none => .ok ⟨text, h⟩
  | some e => .error e

/-- The text is an identifier. -/
def isValid (text : String) : Bool :=
  (fault? text.toList).isNone

/-! ## What is accepted -/

theorem strayChar?_eq_none_iff {position : Nat} {cs : List Char} :
    strayChar? position cs = none ↔ ∀ c ∈ cs, isPart c = true := by
  induction cs generalizing position with
  | nil => simp [strayChar?]
  | cons c cs ih => by_cases h : isPart c = true <;> simp [strayChar?, h, ih]

theorem fault?_eq_none_iff {cs : List Char} :
    fault? cs = none ↔
      ∃ c rest, cs = c :: rest ∧ isStart c = true ∧ ∀ x ∈ rest, isPart x = true := by
  cases cs with
  | nil => simp [fault?]
  | cons c cs =>
    have hcs : (∃ d rest, c :: cs = d :: rest ∧ isStart d = true ∧ ∀ x ∈ rest, isPart x = true) ↔
        isStart c = true ∧ ∀ x ∈ cs, isPart x = true := by
      constructor
      · rintro ⟨d, rest, h, hd, hrest⟩
        cases h
        exact ⟨hd, hrest⟩
      · exact fun h => ⟨c, cs, rfl, h⟩
    rw [hcs]
    by_cases hs : isStart c = true
    · simp [fault?, hs, isPart_of_isStart hs, strayChar?_eq_none_iff]
    · by_cases hp : isPart c = true <;> simp [fault?, hs, hp]

theorem parse_text (id : Identifier) : parse id.text = .ok id := by
  unfold parse
  split
  · rfl
  · next e h => simp [id.wellFormed] at h

theorem text_of_parse {text : String} {id : Identifier} (h : parse text = .ok id) :
    id.text = text := by
  unfold parse at h
  split at h
  · cases h; rfl
  · simp at h

end Identifier

end Restconf
