import Restconf.Proofs.Revision.Candidate

set_option autoImplicit false

/-! # Tags in headers

A header lists tags, each possibly marked as weak and with blanks around it. A tag is listed in such
a header just if it is one of the tags that the header was made of (`isListedIn_header_iff`). -/

namespace Restconf.EntityTag

open Text

/-- A tag as it stands in the list of a header. -/
structure Listed where
  tag : EntityTag
  weak : Bool
  front : List Char
  back : List Char
  front_blank : ∀ c ∈ front, isBlank c = true
  back_blank : ∀ c ∈ back, isBlank c = true

/-- The tag with its mark. -/
def Listed.marked (item : Listed) : List Char :=
  (if item.weak then ['W', '/'] else []) ++ item.tag.render

/-- The characters between two commas of the list. -/
def Listed.chars (item : Listed) : List Char :=
  item.front ++ item.marked ++ item.back

/-- The header that lists some tags. -/
def header (items : List Listed) : String :=
  String.ofList ([','].intercalate (items.map Listed.chars))

/-! ## Listed tags are candidates -/

/-- The tag as a candidate, in quotes and lower case. -/
def Listed.item (item : Listed) : Item where
  candidate := .tag item.tag ⟨item.weak, true, item.tag.uuid.render, item.tag.uuid.spells_render⟩
  front := item.front
  back := item.back
  front_blank := item.front_blank
  back_blank := item.back_blank

theorem render_eq (t : EntityTag) : t.render = ['\x22'] ++ t.uuid.render ++ ['\x22'] := by
  rw [render, List.singleton_append]

theorem Listed.chars_item (item : Listed) : item.item.chars = item.chars := by
  simp only [Item.chars, Listed.item, Candidate.chars, Spelling.chars, Spelling.body,
    Spelling.quote, if_true, chars, marked, render_eq]

theorem header_eq_intercalate (items : List Listed) :
    header items =
      ",".intercalate ((items.map Listed.item).map fun item => String.ofList item.chars) := by
  have hchars : (String.toList ∘ fun item => String.ofList item.chars) ∘ Listed.item =
      Listed.chars := by
    funext item
    simp only [Function.comp_apply, String.toList_ofList, Listed.chars_item]
  rw [← String.toList_inj, header, String.toList_ofList, String.toList_intercalate, List.map_map,
    List.map_map, hchars]
  rfl

/-- **A tag is listed in a header if and only if the header was made of it.** -/
theorem isListedIn_header_iff (t : EntityTag) (items : List Listed) :
    t.isListedIn (header items) = true ↔ ∃ item ∈ items, item.tag = t := by
  rw [header_eq_intercalate, isListedIn_items_iff]
  constructor
  · rintro ⟨item, hitem, hcovers⟩
    obtain ⟨listed, hlisted, rfl⟩ := List.mem_map.1 hitem
    exact ⟨listed, hlisted, hcovers⟩
  · rintro ⟨listed, hlisted, htag⟩
    exact ⟨listed.item, List.mem_map_of_mem hlisted, htag⟩

end Restconf.EntityTag
