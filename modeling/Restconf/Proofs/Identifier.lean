import Restconf.Identifier

set_option autoImplicit false

/-! # The characters of identifiers

An identifier is read back from its characters (`parse_ofList_chars`), and none of the characters
that divide a path stands in one (`not_mem_chars`). -/

namespace Restconf.Identifier

/-- A letter or underscore, and then letters, digits, underscores, hyphens and points. -/
def WellFormed (cs : List Char) : Prop :=
  ∃ c rest, cs = c :: rest ∧ isStart c = true ∧ ∀ x ∈ rest, isPart x = true

theorem parse_ofList_eq_ok_iff {cs : List Char} {id : Identifier} :
    parse (String.ofList cs) = .ok id ↔ id.chars = cs := by
  constructor
  · intro h
    rw [chars, text_of_parse h, String.toList_ofList]
  · rintro rfl
    rw [chars, String.ofList_toList, parse_text]

theorem parse_ofList_chars (id : Identifier) : parse (String.ofList id.chars) = .ok id :=
  parse_ofList_eq_ok_iff.2 rfl

theorem wellFormed_chars (id : Identifier) : WellFormed id.chars :=
  fault?_eq_none_iff.1 id.wellFormed

theorem exists_chars_eq_iff {cs : List Char} :
    (∃ id : Identifier, id.chars = cs) ↔ WellFormed cs := by
  constructor
  · rintro ⟨id, rfl⟩
    exact wellFormed_chars id
  · intro h
    exact ⟨⟨String.ofList cs, by rw [String.toList_ofList]; exact fault?_eq_none_iff.2 h⟩,
      String.toList_ofList⟩

theorem chars_injective {a b : Identifier} (h : a.chars = b.chars) : a = b :=
  Identifier.ext (String.toList_inj.1 h)

theorem chars_ne_nil (id : Identifier) : id.chars ≠ [] := by
  obtain ⟨c, rest, h, -⟩ := wellFormed_chars id
  rw [h]
  exact List.cons_ne_nil c rest

theorem text_ne_empty (id : Identifier) : id.text ≠ "" :=
  fun h => id.chars_ne_nil (String.toList_eq_nil_iff.2 h)

theorem isPart_of_mem_chars {id : Identifier} {c : Char} (h : c ∈ id.chars) : isPart c = true := by
  obtain ⟨d, rest, hchars, hd, hrest⟩ := wellFormed_chars id
  rw [hchars] at h
  rcases List.mem_cons.1 h with rfl | h
  · exact isPart_of_isStart hd
  · exact hrest c h

theorem not_mem_chars {id : Identifier} {c : Char} (h : isPart c = false) : c ∉ id.chars := by
  intro hc
  rw [isPart_of_mem_chars hc] at h
  exact absurd h (by simp)

end Restconf.Identifier
