import Restconf.Proofs.Revision.Calls

set_option autoImplicit false

/-! # The log of tags

Each tag of a run is taken from the supply for one node. The log of a run lists these nodes in
order, so the tag of a node is the one at the place where the log names it last (`Logged`), and a
run only appends to the log (`Logged.afterAll`).

Two tags, one of them seen earlier in the run, are then the same just if they are of the same node
and the log has not named it since (`Logged.tag_eq_iff`). -/

namespace Restconf

/-- Each of the first tags of a supply differs from all tags before it. -/
def EntityTag.Supply.Fresh (supply : Supply) (count : Nat) : Prop :=
  ∀ j < count, ∀ i < j, supply i ≠ supply j

theorem EntityTag.Supply.Fresh.inj {supply : Supply} {count i j : Nat} (h : supply.Fresh count)
    (hi : i < count) (hj : j < count) (heq : supply i = supply j) : i = j := by
  rcases Nat.lt_trichotomy i j with hlt | rfl | hlt
  · exact absurd heq (h j hj i hlt)
  · rfl
  · exact absurd heq.symm (h i hi j hlt)

namespace Revision.Tree

variable {supply : EntityTag.Supply} {log : List Nat} {t t' : Tree}

/-- The current tag of a node. -/
def tag? (t : Tree) (id : Nat) : Option EntityTag :=
  t.nodes[id]?.map fun n => n.revision.tag

theorem tag?_of_getElem? {id : Nat} {n : Node} (h : t.nodes[id]? = some n) :
    t.tag? id = some n.revision.tag := by
  rw [tag?, h, Option.map_some]

/-- The tags of the tree were taken from the supply for the nodes that the log names, and the tag of
    a node is the one that was taken for it last. -/
structure Logged (supply : EntityTag.Supply) (log : List Nat) (t : Tree) : Prop where
  taken : t.taken = log.length
  tag? : ∀ j tag, t.tag? j = some tag ↔
    ∃ i, log[i]? = some j ∧ (∀ k, i < k → log[k]? ≠ some j) ∧ tag = supply i

/-! ## One step -/

/-- If the nodes `ids` get the next tags, in order, and no other tag changes, then the log has these
    nodes appended. -/
theorem Logged.append {ids : List Nat} (h : Logged supply log t) (hnodup : ids.Nodup)
    (htaken : t'.taken = t.taken + ids.length) (hkept : ∀ j, j ∉ ids → t'.tag? j = t.tag? j)
    (hnew : ∀ k j, ids[k]? = some j → t'.tag? j = some (supply (t.taken + k))) :
    Logged supply (log ++ ids) t' := by
  refine ⟨by rw [htaken, h.taken, List.length_append], ?_⟩
  intro j tag
  by_cases hj : j ∈ ids
  · obtain ⟨k, hk⟩ := List.mem_iff_getElem?.1 hj
    have hklt : k < ids.length := (List.getElem?_eq_some_iff.1 hk).1
    -- among the new entries the node stands at one place only
    have hplace : (log ++ ids)[log.length + k]? = some j := by
      rw [List.getElem?_append_right (Nat.le_add_right _ _), Nat.add_sub_cancel_left, hk]
    have honly : ∀ i : Nat, log.length ≤ i → (log ++ ids)[i]? = some j → i = log.length + k := by
      intro i hi hij
      rw [List.getElem?_append_right hi] at hij
      have := (List.getElem?_inj hklt hnodup).1 (hk.trans hij.symm)
      omega
    rw [hnew k j hk, h.taken]
    constructor
    · intro htag
      refine ⟨log.length + k, hplace, ?_, (Option.some.inj htag).symm⟩
      intro i hi hij
      have := honly i (by omega) hij
      omega
    · rintro ⟨i, hij, hlast, rfl⟩
      have hi : log.length ≤ i := by
        by_contra hlt
        exact hlast (log.length + k) (by omega) hplace
      rw [honly i hi hij]
  · have hold : ∀ i : Nat, (log ++ ids)[i]? = some j ↔ log[i]? = some j := by
      intro i
      by_cases hi : i < log.length
      · rw [List.getElem?_append_left hi]
      · have hbeyond : log[i]? = none := List.getElem?_eq_none (Nat.le_of_not_lt hi)
        rw [List.getElem?_append_right (Nat.le_of_not_lt hi), hbeyond]
        constructor
        · exact fun hij => absurd (List.mem_of_getElem? hij) hj
        · exact fun hij => absurd hij (by simp)
    simp only [hkept j hj, h.tag?, ne_eq, hold]

/-- A new last node with the next tag is one more entry of the log. -/
theorem Logged.concat (h : Logged supply log t) {n : Node} (hn : n.revision.tag = supply t.taken) :
    Logged supply (log ++ [t.size]) ⟨t.nodes ++ [n], t.taken + 1⟩ := by
  refine h.append (List.pairwise_singleton _ _) rfl ?_ ?_
  · intro j hj
    rw [List.mem_singleton] at hj
    rw [Tree.tag?, Tree.tag?]
    rcases Nat.lt_or_gt_of_ne hj with hlt | hgt
    · rw [List.getElem?_append_left hlt]
    · have hsize : t.nodes.length < j := hgt
      have hconcat : (t.nodes ++ [n]).length ≤ j := by
        rw [List.length_append, List.length_singleton]
        exact hsize
      rw [List.getElem?_eq_none hconcat, List.getElem?_eq_none hsize.le]
  · intro k j hkj
    rw [List.getElem?_singleton] at hkj
    split at hkj
    · next hk =>
        obtain rfl := Option.some.inj hkj
        rw [Tree.tag?, size, List.getElem?_concat_length, Option.map_some, hn, hk, Nat.add_zero]
    · exact absurd hkj (by simp)

/-- The log of a root alone names it once. -/
theorem logged_ofRoot (supply : EntityTag.Supply) (name : String) (time : Instant) :
    Logged supply [rootId] (ofRoot supply name time) := by
  have hempty : Logged supply [] ⟨[], 0⟩ := ⟨rfl, fun j tag => by simp [Tree.tag?]⟩
  exact hempty.concat rfl

/-- A call appends the nodes that it gives a tag. -/
theorem Logged.after (h : Logged supply log t) (ht : t.Rooted) (call : Call) :
    Logged supply (log ++ t.tagged call) (t.after supply call) := by
  rcases after_cases supply ht call with
    ⟨htagged, hsame⟩ | ⟨parent, name, config, above, -, -, htagged, hadd⟩ |
      ⟨id, time, -, hid, -, htagged, hchanged⟩
  · rw [htagged, hsame, List.append_nil]
    exact h
  · rw [htagged, hadd]
    exact h.concat rfl
  · rw [htagged]
    refine h.append (ht.nodup_lineage hid) hchanged.taken ?_ ?_
    · intro j hj
      rw [Tree.tag?, Tree.tag?, hchanged.kept j hj]
    · intro k j hkj
      have hle : j ≤ id := ht.le_of_mem_lineage hid (List.mem_of_getElem? hkj)
      obtain ⟨n, hn⟩ := exists_getElem? (hle.trans_lt hid)
      rw [tag?_of_getElem? (hchanged.changed k j n hkj hn)]

/-! ## Runs -/

/-- The nodes that the calls of a run give tags, in order. -/
def taggedAll (supply : EntityTag.Supply) : Tree → List Call → List Nat
  | _, [] => []
  | t, call :: calls => t.tagged call ++ taggedAll supply (t.after supply call) calls

/-- **A run only appends to the log.** -/
theorem Logged.afterAll (h : Logged supply log t) (ht : t.Rooted) (calls : List Call) :
    Logged supply (log ++ taggedAll supply t calls) (calls.foldl (Tree.after supply) t) := by
  induction calls generalizing log t with
  | nil =>
      rw [taggedAll, List.append_nil]
      exact h
  | cons call calls ih =>
      rw [taggedAll, ← List.append_assoc]
      exact ih (h.after ht call) (ht.after call)

theorem exists_logged_grown (supply : EntityTag.Supply) (name : String) (time : Instant)
    (calls : List Call) : ∃ log, Logged supply log (grown supply name time calls) :=
  ⟨_, (logged_ofRoot supply name time).afterAll (rooted_ofRoot supply name time) calls⟩

theorem size_le_size_after (supply : EntityTag.Supply) (ht : t.Rooted) (call : Call) :
    t.size ≤ (t.after supply call).size := by
  rcases after_cases supply ht call with
    ⟨-, hsame⟩ | ⟨parent, name, config, above, -, -, -, hadd⟩ | ⟨id, time, -, -, -, -, hchanged⟩
  · rw [hsame]
  · rw [hadd, size, size, List.length_append]
    exact Nat.le_add_right _ _
  · rw [hchanged.size]

/-! ## Comparing tags -/

/-- **Of two tags of a run, one seen when the log was shorter, the later is the same if and only if
    it is of the same node and the log has not named this node since.** -/
theorem Logged.tag_eq_iff {later : List Nat} (h : Logged supply log t)
    (h' : Logged supply (log ++ later) t') (hfresh : supply.Fresh t'.taken) {m n : Nat}
    {tag tag' : EntityTag} (hm : t.tag? m = some tag) (hn : t'.tag? n = some tag') :
    tag = tag' ↔ m = n ∧ n ∉ later := by
  obtain ⟨i, hi, hilast, rfl⟩ := (h.tag? m tag).1 hm
  obtain ⟨j, hj, hjlast, rfl⟩ := (h'.tag? n tag').1 hn
  have hilt : i < log.length := (List.getElem?_eq_some_iff.1 hi).1
  have hjlt : j < (log ++ later).length := (List.getElem?_eq_some_iff.1 hj).1
  have hi' : (log ++ later)[i]? = some m := by
    rw [List.getElem?_append_left hilt, hi]
  constructor
  · intro heq
    have hplace : i = j := by
      refine hfresh.inj ?_ ?_ heq
      · rw [h'.taken, List.length_append]
        omega
      · rw [h'.taken]
        exact hjlt
    subst hplace
    refine ⟨Option.some.inj (hi'.symm.trans hj), ?_⟩
    intro hmem
    obtain ⟨k, hk⟩ := List.mem_iff_getElem?.1 hmem
    refine hjlast (log.length + k) (by omega) ?_
    rw [List.getElem?_append_right (Nat.le_add_right _ _), Nat.add_sub_cancel_left, hk]
  · rintro ⟨rfl, hnot⟩
    -- both places are those of the last entry for the node, which is in the shorter log
    have hjlog : j < log.length := by
      by_contra hge
      rw [List.getElem?_append_right (Nat.le_of_not_lt hge)] at hj
      exact hnot (List.mem_of_getElem? hj)
    rw [List.getElem?_append_left hjlog] at hj
    have hji : ¬ i < j := fun hlt => hilast j hlt hj
    have hij : ¬ j < i := fun hlt => hjlast i hlt hi'
    rw [Nat.le_antisymm (Nat.le_of_not_lt hij) (Nat.le_of_not_lt hji)]

end Revision.Tree

end Restconf
