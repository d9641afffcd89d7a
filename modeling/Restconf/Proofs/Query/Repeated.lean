import Restconf.Query.Basic

set_option autoImplicit false

/-! # Repeated parameters

A query is refused if one of the nine parameters occurs more than once; any other name may repeat
(`requireUnique_eq_ok_iff`). The error names the first such parameter in the order of
`Parameter.all`, wherever it stands in the query (`requireUnique_eq_error_iff`). -/

namespace Restconf.Query

/-- Each of the nine parameters occurs at most once. -/
def IsUnique (q : Query) : Prop :=
  ∀ p : Parameter, (q.getAll p.name).length ≤ 1

theorem mem_repeatedParameters_iff {q : Query} {p : Parameter} :
    p ∈ q.repeatedParameters ↔ 2 ≤ (q.getAll p.name).length := by
  simp [repeatedParameters, Parameter.mem_all]

theorem repeatedParameters_eq_nil_iff {q : Query} : q.repeatedParameters = [] ↔ q.IsUnique := by
  rw [List.eq_nil_iff_forall_not_mem]
  refine forall_congr' fun p => ?_
  rw [mem_repeatedParameters_iff]
  omega

/-- **A query passes if and only if none of the nine parameters repeats.** -/
theorem requireUnique_eq_ok_iff {q : Query} : q.requireUnique = .ok () ↔ q.IsUnique := by
  rw [← repeatedParameters_eq_nil_iff, requireUnique]
  cases q.repeatedParameters with
  | nil => simp
  | cons p ps => simp

/-- A query is refused for the first of the parameters that repeat. -/
theorem requireUnique_eq_error_iff {q : Query} {e : Error} :
    q.requireUnique = .error e ↔ ∃ p, q.repeatedParameters.head? = some p ∧ e = .repeated p := by
  rw [requireUnique]
  cases q.repeatedParameters with
  | nil => simp
  | cons p ps => simp [eq_comm]

end Restconf.Query
