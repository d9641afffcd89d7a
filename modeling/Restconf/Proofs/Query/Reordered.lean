import Mathlib.Data.Fin.VecNotation
import Mathlib.Data.List.FinRange
import Mathlib.Data.List.Nodup
import Mathlib.Data.List.Perm.Basic
import Restconf.Proofs.Query.Repeated

set_option autoImplicit false

/-! # Orders of parameters

The order of a query matters only among the parameters of one name. In another order that leaves
these as they are, the values of each name are the same (`IsReordering.getAll_eq`). All that is
asked of a query by name is asked of these values: the first value, the typed ones and the
parameters that repeat (`repeatedParameters_isReordering`). -/

namespace Restconf.Query

/-- `r` has the parameters of `q`, each in the place that `place` says, and those of one name stand
    in `r` in the order in which they stand in `q`. -/
def IsReordering (q r : Query) : Prop :=
  ∃ place : Fin q.pairs.length ≃ Fin r.pairs.length,
    (∀ i, r.pairs.get (place i) = q.pairs.get i) ∧
    ∀ i j, i < j → (q.pairs.get i).1 = (q.pairs.get j).1 → place i < place j

/-! ## Values and their places -/

/-- The places of a name, in ascending order. -/
def places (q : Query) (name : String) : List (Fin q.pairs.length) :=
  (List.finRange q.pairs.length).filter fun i => (q.pairs.get i).1 = name

theorem mem_places_iff {q : Query} {name : String} {i : Fin q.pairs.length} :
    i ∈ q.places name ↔ (q.pairs.get i).1 = name := by
  simp [places]

theorem places_ascending (q : Query) (name : String) : (q.places name).Pairwise (· < ·) :=
  (List.pairwise_lt_finRange _).filter _

theorem places_nodup (q : Query) (name : String) : (q.places name).Nodup :=
  (q.places_ascending name).imp fun hlt => ne_of_lt hlt

theorem getAll_eq_map_places (q : Query) (name : String) :
    q.getAll name = (q.places name).map fun i => (q.pairs.get i).2 := by
  have hpairs : q.pairs.filter (·.1 = name) = (q.places name).map q.pairs.get := by
    conv_lhs => rw [← List.map_get_finRange q.pairs]
    exact List.filter_map
  rw [getAll, hpairs, List.map_map]
  rfl

/-- The places of a name in the new order are those in the old one, each moved. -/
theorem map_places {q r : Query} (place : Fin q.pairs.length ≃ Fin r.pairs.length)
    (hpair : ∀ i, r.pairs.get (place i) = q.pairs.get i)
    (horder : ∀ i j, i < j → (q.pairs.get i).1 = (q.pairs.get j).1 → place i < place j)
    (name : String) : (q.places name).map place = r.places name := by
  -- both lists are ascending, so they are the same once they have the same elements
  have hascending : ((q.places name).map place).Pairwise (· < ·) := by
    rw [List.pairwise_map]
    refine (q.places_ascending name).imp_of_mem fun hi hj hlt => ?_
    exact horder _ _ hlt ((mem_places_iff.1 hi).trans (mem_places_iff.1 hj).symm)
  have hperm : ((q.places name).map place).Perm (r.places name) := by
    refine (List.perm_ext_iff_of_nodup ((q.places_nodup name).map place.injective)
      (r.places_nodup name)).2 fun j => ?_
    rw [List.mem_map, mem_places_iff]
    constructor
    · rintro ⟨i, hi, rfl⟩
      rw [hpair]
      exact mem_places_iff.1 hi
    · intro hj
      refine ⟨place.symm j, ?_, place.apply_symm_apply j⟩
      rw [mem_places_iff, ← hpair, place.apply_symm_apply]
      exact hj
  exact hperm.eq_of_pairwise (fun i j _ _ hij hji => absurd hij (lt_asymm hji)) hascending
    (r.places_ascending name)

/-- **A name has the same values in both orders.** -/
theorem IsReordering.getAll_eq {q r : Query} (h : q.IsReordering r) (name : String) :
    r.getAll name = q.getAll name := by
  obtain ⟨place, hpair, horder⟩ := h
  rw [getAll_eq_map_places r, getAll_eq_map_places q, ← map_places place hpair horder, List.map_map]
  refine List.map_congr_left fun i _ => ?_
  rw [Function.comp_apply, hpair]

/-! ## What is asked by name -/

theorem length_getAll (q : Query) (name : String) :
    (q.getAll name).length = (q.pairs.map Prod.fst).count name := by
  rw [getAll, List.length_map, List.count, List.countP_map, List.countP_eq_length_filter]
  congr

theorem get?_eq_head? (q : Query) (name : String) : q.get? name = (q.getAll name).head? := by
  rw [getAll, List.head?_map, List.head?_filter]
  rfl

theorem contains_eq_isSome (q : Query) (name : String) :
    q.contains name = (q.get? name).isSome := by
  rw [get?, Option.isSome_map, contains, Bool.eq_iff_iff, List.any_eq_true, List.find?_isSome]

section

variable {q r : Query} (h : q.IsReordering r)
include h

theorem IsReordering.get?_eq (name : String) : r.get? name = q.get? name := by
  rw [get?_eq_head?, h.getAll_eq, ← get?_eq_head?]

theorem IsReordering.contains_eq (name : String) : r.contains name = q.contains name := by
  rw [contains_eq_isSome, h.get?_eq, ← contains_eq_isSome]

theorem IsReordering.typed_eq {α : Type} (p : Parameter) (read : String → Except Error α) :
    r.typed p read = q.typed p read := by
  rw [typed, typed, valueOf?, valueOf?, h.get?_eq]

theorem IsReordering.repeatedParameters_eq : r.repeatedParameters = q.repeatedParameters := by
  simp only [repeatedParameters, h.getAll_eq]

theorem IsReordering.requireUnique_eq : r.requireUnique = q.requireUnique := by
  rw [requireUnique, requireUnique, h.repeatedParameters_eq]

end

/-- **The repeated parameters of a query are those of the nine whose name it has at least twice,
    each once and in the order of `Parameter.all`, and the query is refused just if there are any,
    for the first of them. In another order that leaves the parameters of each name as they stand, a
    query has the same values under every name, the same typed values and the same repeated
    parameters, and is refused for the same one.** -/
theorem repeatedParameters_isReordering :
    (∀ q : Query,
      q.repeatedParameters.Nodup ∧ q.repeatedParameters.Sublist Parameter.all ∧
      (∀ p, p ∈ q.repeatedParameters ↔ 2 ≤ (q.pairs.map Prod.fst).count p.name) ∧
      (q.requireUnique = .ok () ↔ q.repeatedParameters = []) ∧
      ∀ e, q.requireUnique = .error e ↔
        ∃ p, q.repeatedParameters.head? = some p ∧ e = .repeated p) ∧
    ∀ q r : Query, q.IsReordering r →
      (∀ name, r.get? name = q.get? name ∧ r.getAll name = q.getAll name ∧
        r.contains name = q.contains name) ∧
      r.content = q.content ∧ r.depth = q.depth ∧ r.insert = q.insert ∧
      r.withDefaults = q.withDefaults ∧
      r.repeatedParameters = q.repeatedParameters ∧ r.requireUnique = q.requireUnique := by
  have hall : Parameter.all.Nodup := by decide
  refine ⟨fun q => ?_, fun q r h => ?_⟩
  · have hsublist : q.repeatedParameters.Sublist Parameter.all := List.filter_sublist
    refine ⟨hall.sublist hsublist, hsublist, fun p => ?_, ?_, fun e => requireUnique_eq_error_iff⟩
    · rw [mem_repeatedParameters_iff, length_getAll]
    · rw [requireUnique_eq_ok_iff, repeatedParameters_eq_nil_iff]
  · exact ⟨fun name => ⟨h.get?_eq name, h.getAll_eq name, h.contains_eq name⟩, h.typed_eq _ _,
      h.typed_eq _ _, h.typed_eq _ _, h.typed_eq _ _, h.repeatedParameters_eq, h.requireUnique_eq⟩

theorem repeatedParameters_isReordering_mixedNames :
    let q : Query := ⟨[("depth", "1"), ("x", "a"), ("depth", "2"), ("content", "all"), ("x", "b"),
      ("content", "new")]⟩
    let r : Query := ⟨[("x", "a"), ("content", "all"), ("depth", "1"), ("content", "new"),
      ("depth", "2"), ("x", "b")]⟩
    q.IsReordering r ∧ r.repeatedParameters = q.repeatedParameters ∧
      q.repeatedParameters = [.content, .depth] ∧ r.getAll "x" = q.getAll "x" ∧
      r.content = q.content ∧ r.requireUnique = .error (.repeated .content) := by
  intro q r
  have h : q.IsReordering r :=
    ⟨⟨![2, 0, 4, 1, 5, 3], ![1, 3, 0, 5, 2, 4], fun i => by decide +revert,
      fun i => by decide +revert⟩, by decide, by decide⟩
  obtain ⟨hnames, hcontent, -, -, -, hrepeated, hrefused⟩ := repeatedParameters_isReordering.2 q r h
  have hboth : q.repeatedParameters = [.content, .depth] := by decide
  refine ⟨h, hrepeated, hboth, (hnames "x").2.1, hcontent, ?_⟩
  rw [hrefused, ((repeatedParameters_isReordering.1 q).2.2.2.2 _).2 ⟨_, by rw [hboth]; rfl, rfl⟩]

end Restconf.Query
