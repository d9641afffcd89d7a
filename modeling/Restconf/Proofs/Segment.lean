import Restconf.Proofs.Key.RoundTrip
import Restconf.Segment

set_option autoImplicit false

/-! # Comparing segments

Segments are compared key by key. Keys whose values are those of their texts equal themselves, as no
text is read as "not a number" (`same_self`), and segments with the same module, name and key values
lead to the same place (`Agrees.leadsTo`). -/

namespace Restconf

theorem all_zip_of_forall₂ {α β : Type} {p : α × β → Bool} {xs : List α} {ys : List β}
    (h : List.Forall₂ (fun x y => p (x, y) = true) xs ys) : (xs.zip ys).all p = true := by
  induction h with
  | nil => rfl
  | cons hxy _ ih => rw [List.zip_cons_cons, List.all_cons, hxy, ih]; rfl

theorem map_eq_map_iff_forall₂ {α β γ : Type} {f : α → γ} {g : β → γ} {xs : List α}
    {ys : List β} : xs.map f = ys.map g ↔ List.Forall₂ (fun x y => f x = g y) xs ys := by
  rw [← List.forall₂_eq_eq_eq, List.forall₂_map_left_iff, List.forall₂_map_right_iff]

/-! ## Equality of what was read -/

theorem Key.same_self {k : Key} (h : KeyValue.ofText k.text = .ok k.value) : k.same k = true := by
  simp [Key.same, KeyValue.same_self_of_ofText h]

theorem ListInstance.same_self {entry : ListInstance} (h : Key.Valued entry.keys) :
    entry.same entry = true := by
  rw [same, Bool.and_eq_true, Bool.and_eq_true]
  refine ⟨⟨decide_eq_true rfl, decide_eq_true rfl⟩, all_zip_of_forall₂ ?_⟩
  exact List.forall₂_same.2 fun k hk => Key.same_self (h k hk)

theorem Segment.same_self {s : Segment} (h : Key.Valued s.keys) : s.same s = true := by
  cases s with
  | node _ => simp [same]
  | list entry => exact ListInstance.same_self h

/-! ## Segments that agree but for quotes and written modules -/

theorem NodeName.canonical_congr {a b : NodeName} (hmodule : a.module? = b.module?)
    (hname : a.name = b.name) (parent : Option Identifier) :
    a.canonical parent = b.canonical parent := by
  simp only [canonical, hmodule, hname]

namespace Segment

/-- The segments differ at most in how they name their module and quote their keys. -/
structure Agrees (a b : Segment) : Prop where
  isList : a.isList = b.isList
  module? : a.module? = b.module?
  name : a.name = b.name
  keys : a.keys.map Key.unquoted = b.keys.map Key.unquoted

theorem Agrees.symm {a b : Segment} (h : Agrees a b) : Agrees b a :=
  ⟨h.isList.symm, h.module?.symm, h.name.symm, h.keys.symm⟩

theorem Agrees.texts {a b : Segment} (h : Agrees a b) :
    a.keys.map Key.text = b.keys.map Key.text := by
  have htext : Key.text ∘ Key.unquoted = Key.text := rfl
  have := congrArg (List.map Key.text) h.keys
  rwa [List.map_map, List.map_map, htext] at this

theorem Agrees.values {a b : Segment} (h : Agrees a b) :
    a.keys.map Key.value = b.keys.map Key.value := by
  have hvalue : Key.value ∘ Key.unquoted = Key.value := rfl
  have := congrArg (List.map Key.value) h.keys
  rwa [List.map_map, List.map_map, hvalue] at this

/-- Agreeing segments have one canonical form. -/
theorem Agrees.canonical {a b : Segment} (h : Agrees a b) (parent : Option Identifier) :
    a.canonical parent = b.canonical parent := by
  have hnode := NodeName.canonical_congr h.module? h.name parent
  cases a with
  | node _ =>
      cases b with
      | node _ => exact congrArg Segment.node hnode
      | list _ => exact absurd h.isList (by simp [Segment.isList])
  | list _ =>
      cases b with
      | node _ => exact absurd h.isList (by simp [Segment.isList])
      | list _ =>
          have hkeys := h.keys
          simp only [Segment.nodeName, Segment.keys] at hnode hkeys
          simp only [Segment.canonical, hnode, hkeys]

theorem Agrees.leadsTo {a b : Segment} (h : Agrees a b) (ha : Key.Valued a.keys) :
    a.leadsTo b = true := by
  have hlength : a.keys.length = b.keys.length := by
    simpa using congrArg List.length h.keys
  rw [Segment.leadsTo, Bool.and_eq_true, Bool.and_eq_true, Bool.and_eq_true]
  refine ⟨⟨⟨decide_eq_true h.module?, decide_eq_true h.name⟩, decide_eq_true hlength⟩, ?_⟩
  have hvalues := map_eq_map_iff_forall₂.1 h.values
  refine all_zip_of_forall₂ (((List.forall₂_and_left _ _).2 ⟨ha, hvalues⟩).imp ?_)
  rintro x y ⟨hx, hxy⟩
  have hsame : x.value.same y.value = true := by
    rw [← hxy]
    exact KeyValue.same_self_of_ofText hx
  exact hsame

end Segment

end Restconf
