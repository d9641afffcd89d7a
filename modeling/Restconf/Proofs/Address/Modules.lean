import Mathlib.Data.List.Basic
import Mathlib.Data.List.Induction
import Restconf.Address.Basic
import Restconf.Proofs.Identifier

set_option autoImplicit false

/-! # Modules along a path

Two views of an address are built segment by segment: its segments in groups, by module, and the
list of its modules. The form of a segment goes to the end of the forms of its group, and no other
forms change (`lookup_addToGroup`), so the groups are those of the segments
(`mem_formsByModule_iff`). A module is listed when it comes first, so the modules stand in the order
in which they come first (`firsts_inOrder`), and the first of them with some property is the first
with it along the path (`find?_firsts`). -/

namespace Restconf.Address

/-! ## Groups -/

/-- The names of the groups are in ascending order. -/
def Ascending (groups : List (String × List String)) : Prop :=
  groups.Pairwise fun a b => a.1 < b.1

theorem mem_addToGroup {name form : String} {groups : List (String × List String)}
    {group : String × List String} (h : group ∈ addToGroup name form groups) :
    group.1 = name ∨ ∃ old ∈ groups, old.1 = group.1 := by
  induction groups with
  | nil =>
      obtain rfl := List.mem_singleton.1 h
      exact Or.inl rfl
  | cons first rest ih =>
      obtain ⟨other, forms⟩ := first
      rw [addToGroup] at h
      split at h
      · next heq =>
          rcases List.mem_cons.1 h with rfl | h
          · exact Or.inl heq.symm
          · exact Or.inr ⟨group, List.mem_cons_of_mem _ h, rfl⟩
      · split at h
        · rcases List.mem_cons.1 h with rfl | h
          · exact Or.inl rfl
          · exact Or.inr ⟨group, h, rfl⟩
        · rcases List.mem_cons.1 h with rfl | h
          · exact Or.inr ⟨_, List.mem_cons_self, rfl⟩
          · refine (ih h).imp_right ?_
            rintro ⟨old, hold, heq⟩
            exact ⟨old, List.mem_cons_of_mem _ hold, heq⟩

theorem Ascending.addToGroup {groups : List (String × List String)} (h : Ascending groups)
    (name form : String) : Ascending (addToGroup name form groups) := by
  induction groups with
  | nil => exact List.pairwise_singleton _ _
  | cons first rest ih =>
      obtain ⟨other, forms⟩ := first
      obtain ⟨hfirst, hrest⟩ := List.pairwise_cons.1 h
      rw [Address.addToGroup]
      split
      · exact List.pairwise_cons.2 ⟨hfirst, hrest⟩
      · next hne =>
          split
          · next hlt =>
              refine List.pairwise_cons.2 ⟨?_, h⟩
              intro group hgroup
              rcases List.mem_cons.1 hgroup with rfl | hgroup
              · exact hlt
              · exact String.lt_trans hlt (hfirst group hgroup)
          · next hnot =>
              have hlt : other < name := Std.lt_of_le_of_ne (String.not_lt.1 hnot) (Ne.symm hne)
              refine List.pairwise_cons.2 ⟨?_, ih hrest⟩
              intro group hgroup
              rcases mem_addToGroup hgroup with heq | ⟨old, hold, heq⟩
              · rw [heq]
                exact hlt
              · rw [← heq]
                exact hfirst old hold

/-- Nothing is found under a name that comes before all others. -/
theorem lookup_eq_none_of_lt {name : String} {groups : List (String × List String)}
    (h : ∀ group ∈ groups, name < group.1) : groups.lookup name = none := by
  rw [List.lookup_eq_none_iff]
  intro group hgroup
  have hlt := h group hgroup
  simpa using fun heq : name = group.1 => String.lt_irrefl _ (heq ▸ hlt)

/-- A form comes at the end of the forms under its name, and the others stay. -/
theorem lookup_addToGroup {groups : List (String × List String)} (h : Ascending groups)
    (name form m : String) :
    (addToGroup name form groups).lookup m =
      if m = name then some ((groups.lookup m).getD [] ++ [form]) else groups.lookup m := by
  induction groups with
  | nil =>
      by_cases hm : m = name
      · simp [addToGroup, hm]
      · simp [addToGroup, List.lookup_cons, hm, beq_eq_false_iff_ne.2 hm]
  | cons first rest ih =>
      obtain ⟨other, forms⟩ := first
      obtain ⟨hfirst, hrest⟩ := List.pairwise_cons.1 h
      rw [addToGroup]
      split
      · next heq =>
          subst heq
          by_cases hm : m = name
          · simp [hm]
          · simp [List.lookup_cons, hm, beq_eq_false_iff_ne.2 hm]
      · next hne =>
          split
          · next hlt =>
              -- the new group comes before all others, so the name has no group further on either
              by_cases hm : m = name
              · subst hm
                have hnone : ((other, forms) :: rest).lookup m = none := by
                  refine lookup_eq_none_of_lt fun group hgroup => ?_
                  rcases List.mem_cons.1 hgroup with rfl | hgroup
                  · exact hlt
                  · exact String.lt_trans hlt (hfirst group hgroup)
                rw [hnone]
                simp
              · simp [List.lookup_cons, hm, beq_eq_false_iff_ne.2 hm]
          · by_cases hm : m = other
            · subst hm
              have hne' : m ≠ name := fun heq => hne heq.symm
              simp [hne']
            · simp only [List.lookup_cons, beq_eq_false_iff_ne.2 hm, ih hrest]

theorem Ascending.lookup_eq_some_iff {groups : List (String × List String)} (h : Ascending groups)
    {name : String} {forms : List String} :
    groups.lookup name = some forms ↔ (name, forms) ∈ groups := by
  rw [List.lookup_eq_some_iff]
  constructor
  · rintro ⟨front, back, rfl, -⟩
    simp
  · intro hmem
    obtain ⟨front, back, rfl⟩ := List.append_of_mem hmem
    refine ⟨front, back, rfl, fun group hgroup => ?_⟩
    have hlt : group.1 < name :=
      (List.pairwise_append.1 h).2.2 group hgroup (name, forms) List.mem_cons_self
    simpa using fun heq : name = group.1 => String.lt_irrefl _ (heq ▸ hlt)

/-! ## The groups of a path -/

/-- The segments without their modules, grouped by module. -/
def grouped (ss : List Segment) : List (String × List String) :=
  ss.foldl (fun groups s => addToGroup (groupOf s) s.withoutModule groups) []

theorem grouped_concat (ss : List Segment) (s : Segment) :
    grouped (ss ++ [s]) = addToGroup (groupOf s) s.withoutModule (grouped ss) := by
  rw [grouped, List.foldl_append]
  rfl

theorem ascending_grouped (ss : List Segment) : Ascending (grouped ss) := by
  induction ss using List.reverseRecOn with
  | nil => exact .nil
  | append_singleton ss s ih =>
      rw [grouped_concat]
      exact ih.addToGroup _ _

/-- The forms of the segments with a group, in path order. -/
def formsOf (name : String) (ss : List Segment) : List String :=
  (ss.filter (groupOf · = name)).map Segment.withoutModule

theorem lookup_grouped (ss : List Segment) (name : String) :
    (grouped ss).lookup name = if formsOf name ss = [] then none else some (formsOf name ss) := by
  induction ss using List.reverseRecOn with
  | nil => rfl
  | append_singleton ss s ih =>
      rw [grouped_concat, lookup_addToGroup (ascending_grouped ss), ih]
      by_cases hs : groupOf s = name
      · have hforms : formsOf name (ss ++ [s]) = formsOf name ss ++ [s.withoutModule] := by
          simp [formsOf, hs]
        have hne : formsOf name ss ++ [s.withoutModule] ≠ [] := by simp
        rw [if_pos hs.symm, hforms, if_neg hne]
        split
        · next hnil => simp [hnil]
        · rfl
      · have hforms : formsOf name (ss ++ [s]) = formsOf name ss := by
          simp [formsOf, hs]
        rw [if_neg fun heq => hs heq.symm, hforms]

/-- **The groups are those of the segments, each with the forms of its segments.** -/
theorem mem_formsByModule_iff {a : Address} {name : String} {forms : List String} :
    (name, forms) ∈ a.formsByModule ↔
      ∃ s ∈ a.segments, groupOf s = name ∧ forms = formsOf name a.segments := by
  have hlookup := lookup_grouped a.segments name
  have hnil : formsOf name a.segments = [] ↔ ∀ s ∈ a.segments, groupOf s ≠ name := by
    simp [formsOf]
  rw [show a.formsByModule = grouped a.segments from rfl,
    ← (ascending_grouped a.segments).lookup_eq_some_iff, hlookup]
  by_cases h : formsOf name a.segments = []
  · rw [if_pos h]
    constructor
    · intro hnone
      exact absurd hnone (by simp)
    · rintro ⟨s, hs, hname, -⟩
      exact absurd hname (hnil.1 h s hs)
  · obtain ⟨s, hs, hname⟩ : ∃ s ∈ a.segments, groupOf s = name := by
      by_contra hnone
      exact h (hnil.2 fun s hs hname => hnone ⟨s, hs, hname⟩)
    rw [if_neg h, Option.some.injEq]
    constructor
    · rintro rfl
      exact ⟨s, hs, hname, rfl⟩
    · rintro ⟨-, -, -, rfl⟩
      rfl

/-- Segments are in one group just if they have the same module or none. -/
theorem groupOf_eq_iff {s r : Segment} : groupOf s = groupOf r ↔ s.module? = r.module? := by
  unfold groupOf
  cases s.module? with
  | none =>
      cases r.module? with
      | none => simp
      | some n => simpa using n.text_ne_empty.symm
  | some m =>
      cases r.module? with
      | none => simpa using m.text_ne_empty
      | some n => simp [Identifier.ext_iff]

/-! ## Modules -/

/-- Each module once, where it comes first. -/
def firsts (ms : List Identifier) : List Identifier :=
  ms.foldl (fun seen m => if seen.contains m then seen else seen ++ [m]) []

theorem firsts_concat (ms : List Identifier) (m : Identifier) :
    firsts (ms ++ [m]) = if m ∈ firsts ms then firsts ms else firsts ms ++ [m] := by
  rw [firsts, List.foldl_append]
  exact if_congr List.contains_iff_mem rfl rfl

theorem mem_firsts_iff {ms : List Identifier} {m : Identifier} : m ∈ firsts ms ↔ m ∈ ms := by
  induction ms using List.reverseRecOn with
  | nil => rfl
  | append_singleton ms n ih =>
      rw [firsts_concat, List.mem_append, ← ih, List.mem_singleton]
      split
      · next hn =>
          constructor
          · exact Or.inl
          · rintro (h | rfl)
            · exact h
            · exact hn
      · simp

/-- Repetitions do not hide the first element with a property. -/
theorem find?_firsts (p : Identifier → Bool) (ms : List Identifier) :
    (firsts ms).find? p = ms.find? p := by
  induction ms using List.reverseRecOn with
  | nil => rfl
  | append_singleton ms m ih =>
      rw [firsts_concat, List.find?_append, ← ih]
      split
      · next hm =>
          by_cases hp : p m = true
          · obtain ⟨n, hn⟩ := Option.isSome_iff_exists.1 (List.find?_isSome.2 ⟨m, hm, hp⟩)
            rw [hn]
            rfl
          · simp [hp]
      · rw [List.find?_append]

theorem firsts_inOrder (ms : List Identifier) :
    (firsts ms).Pairwise fun m n => ms.idxOf m < ms.idxOf n := by
  induction ms using List.reverseRecOn with
  | nil => exact .nil
  | append_singleton ms m ih =>
      -- a module that was there keeps the place where it comes first, whatever follows
      have hold : (firsts ms).Pairwise fun k n =>
          (ms ++ [m]).idxOf k < (ms ++ [m]).idxOf n := by
        refine ih.imp_of_mem fun hk hn hlt => ?_
        rwa [List.idxOf_append_of_mem (mem_firsts_iff.1 hk),
          List.idxOf_append_of_mem (mem_firsts_iff.1 hn)]
      rw [firsts_concat]
      split
      · exact hold
      · next hm =>
          refine List.pairwise_append.2 ⟨hold, List.pairwise_singleton _ _, ?_⟩
          intro k hk n hn
          obtain rfl := List.mem_singleton.1 hn
          have hk' := mem_firsts_iff.1 hk
          have hn' : n ∉ ms := fun h => hm (mem_firsts_iff.2 h)
          rw [List.idxOf_append_of_mem hk', List.idxOf_append_of_notMem hn']
          have := List.idxOf_lt_length_of_mem hk'
          omega

theorem nodup_firsts (ms : List Identifier) : (firsts ms).Nodup := by
  refine (firsts_inOrder ms).imp ?_
  rintro m _ hlt rfl
  exact Nat.lt_irrefl _ hlt

/-! ## The modules of a path -/

theorem mem_modules_iff {a : Address} {m : Identifier} :
    m ∈ a.modules ↔ ∃ s ∈ a.segments, s.module? = some m :=
  mem_firsts_iff.trans List.mem_filterMap

theorem mem_map_fst_formsByModule_iff {a : Address} {name : String} :
    name ∈ a.formsByModule.map Prod.fst ↔ ∃ s ∈ a.segments, groupOf s = name := by
  rw [List.mem_map]
  constructor
  · rintro ⟨⟨_, forms⟩, hgroup, rfl⟩
    obtain ⟨s, hs, hname, -⟩ := mem_formsByModule_iff.1 hgroup
    exact ⟨s, hs, hname⟩
  · rintro ⟨s, hs, hname⟩
    exact ⟨(name, formsOf name a.segments), mem_formsByModule_iff.2 ⟨s, hs, hname, rfl⟩, rfl⟩

/-- **The modules of a path are the names of its groups, the empty one left out.** -/
theorem mem_map_text_modules_iff {a : Address} {name : String} :
    name ∈ a.modules.map Identifier.text ↔ name ∈ a.formsByModule.map Prod.fst ∧ name ≠ "" := by
  rw [mem_map_fst_formsByModule_iff, List.mem_map]
  constructor
  · rintro ⟨m, hm, rfl⟩
    obtain ⟨s, hs, hmodule⟩ := mem_modules_iff.1 hm
    exact ⟨⟨s, hs, by rw [groupOf, hmodule]; rfl⟩, m.text_ne_empty⟩
  · rintro ⟨⟨s, hs, rfl⟩, hne⟩
    cases hmodule : s.module? with
    | none => exact absurd (by rw [groupOf, hmodule]; rfl) hne
    | some m => exact ⟨m, mem_modules_iff.2 ⟨s, hs, hmodule⟩, by rw [groupOf, hmodule]; rfl⟩

end Restconf.Address
