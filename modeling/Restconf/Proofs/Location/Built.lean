import Restconf.Location
import Restconf.Proofs.Address.Reread
import Restconf.Proofs.Query.RoundTrip

set_option autoImplicit false

/-! # Locations that can be built

A location is built by a run of steps: it starts with a top node, goes down node by node, and may be
given a query at any time. Each step keeps the segments plain and in a row of modules that ends in
the module of the location (`Built.descends`), and the query one that can be written
(`Built.wellNamed`). -/

namespace Restconf

/-- The query was read from some text, or there is none. -/
def Query.IsGiven (q : Query) : Prop :=
  q = .empty ∨ ∃ text, parse text = .ok q

theorem Query.IsGiven.wellNamed {q : Query} (h : q.IsGiven) : q.WellNamed := by
  rcases h with rfl | ⟨text, h⟩
  · intro pair hpair
    exact absurd hpair List.not_mem_nil
  · exact wellNamed_of_read h

namespace Location

open Address (Descends)

/-- The location is what some run of steps builds. -/
inductive Built : Location → Prop
  | start {query : Query} (module name : Identifier) :
      query.IsGiven → Built (start query module name)
  | enter {l : Location} (name : Identifier) : Built l → Built (l.enter name)
  | enterModule {l : Location} (module name : Identifier) :
      Built l → Built (l.enterModule module name)
  | enterList {l l' : Location} (name : Identifier) (values : List KeyValue) :
      Built l → l.enterList name values = .ok l' → Built l'
  | setQuery {l : Location} {query : Query} : Built l → query.IsGiven → Built (l.setQuery query)

/-! ## Steps -/

/-- A list is entered with at least one key, and then adds one segment. -/
theorem enterList_eq_ok_iff {l l' : Location} {name : Identifier} {values : List KeyValue} :
    l.enterList name values = .ok l' ↔
      values ≠ [] ∧ l' = { l with segments := l.segments ++
        [.list ⟨⟨.carried l.module, name⟩, values.map Key.ofValue⟩] } := by
  unfold enterList
  cases values with
  | nil => simp
  | cons value values => simp [eq_comm]

theorem ofModule_self (module : Identifier) :
    ModuleScope.ofModule (some module) (some module ≠ some module) = .carried module := by
  simp [ModuleScope.ofModule]

theorem plain_node {parent : Option Identifier} {module name : Identifier} {scope : ModuleScope}
    (h : scope = .ofModule (some module) (some module ≠ parent)) :
    (Segment.node ⟨scope, name⟩).Plain parent (some module) :=
  ⟨h, fun hnone => absurd hnone (by simp), fun _ hk => absurd hk List.not_mem_nil,
    fun hlist => absurd hlist (by simp [Segment.isList])⟩

theorem plain_list (module name : Identifier) {values : List KeyValue} (h : values ≠ []) :
    (Segment.list ⟨⟨.carried module, name⟩, values.map Key.ofValue⟩).Plain (some module)
      (some module) := by
  refine ⟨(ofModule_self module).symm, fun hnone => absurd hnone (by simp), ?_, ?_⟩
  · intro k hk
    obtain ⟨value, -, rfl⟩ := List.mem_map.1 hk
    rfl
  · intro _
    simpa [Segment.keys] using h

/-! ## Runs -/

/-- **The segments of a built location are plain, each in the module that the one before it hands
    on, and the last one is in the module of the location.** -/
theorem Built.descends {l : Location} (h : Built l) :
    Descends none l.segments (some l.module) := by
  induction h with
  | start module name _ => exact .cons (plain_node rfl) .nil
  | @enter l name _ ih => exact ih.concat (plain_node (ofModule_self l.module).symm)
  | @enterModule l module name _ ih =>
      have hne : l.module ≠ module ↔ some module ≠ some l.module := by
        simp [eq_comm]
      have hscope : ModuleScope.ofModule (some module) (l.module ≠ module) =
          .ofModule (some module) (some module ≠ some l.module) := by
        simp only [hne]
      exact ih.concat (plain_node hscope)
  | @enterList l l' name values _ hlist ih =>
      obtain ⟨hvalues, rfl⟩ := enterList_eq_ok_iff.1 hlist
      exact ih.concat (plain_list l.module name hvalues)
  | setQuery _ _ ih => exact ih

/-- The query of a built location has valid names. -/
theorem Built.wellNamed {l : Location} (h : Built l) : l.query.WellNamed := by
  induction h with
  | start _ _ hquery => exact hquery.wellNamed
  | enter _ _ ih => exact ih
  | enterModule _ _ _ ih => exact ih
  | @enterList l l' name values _ hlist ih =>
      obtain ⟨-, rfl⟩ := enterList_eq_ok_iff.1 hlist
      exact ih
  | setQuery _ hquery _ => exact hquery.wellNamed

theorem Built.segments_ne_nil {l : Location} (h : Built l) : l.segments ≠ [] := by
  intro hnil
  have hdescends := h.descends
  rw [hnil] at hdescends
  cases hdescends

end Location

end Restconf
