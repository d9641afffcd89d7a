import Restconf.Proofs.Revision.Lineage

set_option autoImplicit false

/-! # Changes of a revision tree

A recorded change gives revisions to some nodes, one after the other, and does nothing else
(`Changed`). In a rooted tree these are the nodes of one lineage (`Rooted.changed_lineage`), and to
go up from node to node without a list of them comes to the same: `Climbs` follows the links
whatever they are, and `Rooted.climbs_iff` says that this ends, without fault, in the same tree. -/

namespace Restconf.Revision.Tree

variable {supply : EntityTag.Supply} {time : Instant} {t t' : Tree} {id : Nat} {n : Node}

theorem node_eq_ok_iff : t.node id = .ok n ↔ t.nodes[id]? = some n := by
  unfold node
  cases t.nodes[id]? with
  | none => simp
  | some _ => simp

theorem node_eq_error (h : t.size ≤ id) : t.node id = .error (.unknownNode id) := by
  rw [node, List.getElem?_eq_none h]

/-! ## Revisions of one node -/

@[simp] theorem taken_touch : (touch supply time t id).taken = t.taken + 1 := rfl

@[simp] theorem size_touch : (touch supply time t id).size = t.size :=
  List.length_modify _ _ _

theorem getElem?_touch (j : Nat) :
    (touch supply time t id).nodes[j]? =
      t.nodes[j]?.map fun n =>
        if id = j then { n with revision := ⟨time, supply t.taken⟩ } else n :=
  List.getElem?_modify _ _ _ _

theorem getElem?_touch_of_ne {j : Nat} (h : id ≠ j) :
    (touch supply time t id).nodes[j]? = t.nodes[j]? := by
  rw [getElem?_touch]
  simp [h]

theorem parentOf?_touch (j : Nat) : (touch supply time t id).parentOf? j = t.parentOf? j := by
  rw [parentOf?, parentOf?, getElem?_touch]
  cases t.nodes[j]? with
  | none => rfl
  | some n =>
      by_cases h : id = j
      · simp [h]
      · simp [h]

theorem lineage_touch (j : Nat) : (touch supply time t id).lineage j = t.lineage j :=
  lineage_congr parentOf?_touch j

/-! ## Revisions of several nodes -/

/-- `t'` is `t` but for the revisions of the nodes `ids`, each of which has the time of the change
    and a tag of its own, taken from the supply in their order. -/
structure Changed (supply : EntityTag.Supply) (time : Instant) (ids : List Nat) (t t' : Tree) :
    Prop where
  size : t'.size = t.size
  taken : t'.taken = t.taken + ids.length
  kept : ∀ j, j ∉ ids → t'.nodes[j]? = t.nodes[j]?
  changed : ∀ (k j : Nat) (n : Node), ids[k]? = some j → t.nodes[j]? = some n →
    t'.nodes[j]? = some { n with revision := ⟨time, supply (t.taken + k)⟩ }

theorem changed_foldl_touch {ids : List Nat} (h : ids.Nodup) (t : Tree) :
    Changed supply time ids t (ids.foldl (touch supply time) t) := by
  induction ids generalizing t with
  | nil => exact ⟨rfl, rfl, fun _ _ => rfl, fun _ _ _ hk => absurd hk (by simp)⟩
  | cons id ids ih =>
      obtain ⟨hid, hids⟩ := List.nodup_cons.1 h
      have hrest := ih hids (touch supply time t id)
      refine ⟨?_, ?_, ?_, ?_⟩
      · rw [List.foldl_cons, hrest.size, size_touch]
      · rw [List.foldl_cons, hrest.taken, taken_touch, List.length_cons]
        omega
      · intro j hj
        rw [List.mem_cons, not_or] at hj
        rw [List.foldl_cons, hrest.kept j hj.2, getElem?_touch_of_ne (Ne.symm hj.1)]
      · intro k j n hk hn
        rw [List.foldl_cons]
        cases k with
        | zero =>
            -- the first node is not among the others, so it keeps its first new revision
            obtain rfl : id = j := by simpa using hk
            rw [hrest.kept id hid, getElem?_touch, hn]
            simp
        | succ k =>
            have hk' : ids[k]? = some j := by simpa using hk
            have hne : id ≠ j := by
              rintro rfl
              exact hid (List.mem_of_getElem? hk')
            rw [← getElem?_touch_of_ne hne] at hn
            rw [hrest.changed k j n hk' hn, taken_touch, Nat.add_right_comm, Nat.add_assoc]

/-- A change leaves names, links and kinds as they are. -/
theorem Changed.exists_node {ids : List Nat} (h : Changed supply time ids t t') {j : Nat}
    {n' : Node} (hn' : t'.nodes[j]? = some n') :
    ∃ n, t.nodes[j]? = some n ∧ n'.name = n.name ∧ n'.parent = n.parent ∧ n'.config = n.config := by
  by_cases hj : j ∈ ids
  · obtain ⟨k, hk⟩ := List.mem_iff_getElem?.1 hj
    have hlt : j < t.size := h.size ▸ lt_size_of_getElem? hn'
    obtain ⟨n, hn⟩ := exists_getElem? hlt
    obtain rfl := Option.some.inj ((h.changed k j n hk hn).symm.trans hn')
    exact ⟨n, hn, rfl, rfl, rfl⟩
  · exact ⟨n', (h.kept j hj).symm.trans hn', rfl, rfl, rfl⟩

theorem Changed.rooted {ids : List Nat} (h : Changed supply time ids t t') (ht : t.Rooted) :
    t'.Rooted := by
  obtain ⟨root, hroot, hparent, hconfig⟩ := ht.root
  constructor
  · have hlt : rootId < t'.size := h.size ▸ lt_size_of_getElem? hroot
    obtain ⟨root', hroot'⟩ := exists_getElem? hlt
    obtain ⟨_, hsame, -, hparent', hconfig'⟩ := h.exists_node hroot'
    obtain rfl := Option.some.inj (hroot.symm.trans hsame)
    exact ⟨root', hroot', hparent'.trans hparent, hconfig'.trans hconfig⟩
  · intro id n' hid hn'
    obtain ⟨n, hn, -, hparent', -⟩ := h.exists_node hn'
    rw [hparent']
    exact ht.below id n hid hn

/-! ## Recorded changes -/

theorem recordChange_of_config (supply : EntityTag.Supply) (time : Instant)
    (hn : t.nodes[id]? = some n) (hconfig : n.config = true) :
    recordChange supply t id time = .ok (true, (t.lineage id).foldl (touch supply time) t) := by
  simp only [recordChange, node_eq_ok_iff.2 hn, hconfig, if_true]

theorem recordChange_of_not_config (supply : EntityTag.Supply) (time : Instant)
    (hn : t.nodes[id]? = some n) (hconfig : n.config = false) :
    recordChange supply t id time = .ok (false, t) := by
  simp only [recordChange, node_eq_ok_iff.2 hn, hconfig, Bool.false_eq_true, if_false]

theorem recordChange_of_size_le (supply : EntityTag.Supply) (time : Instant) (h : t.size ≤ id) :
    recordChange supply t id time = .error (.unknownNode id) := by
  simp only [recordChange, node_eq_error h]

/-- A change leaves a trace if it is one of a configuration node, and then changes the lineage. -/
theorem recordChange_eq_ok_true_iff :
    recordChange supply t id time = .ok (true, t') ↔
      (∃ n, t.nodes[id]? = some n ∧ n.config = true) ∧
        t' = (t.lineage id).foldl (touch supply time) t := by
  cases hn : t.nodes[id]? with
  | none =>
      rw [recordChange_of_size_le _ _ (List.getElem?_eq_none_iff.1 hn)]
      simp
  | some n =>
      cases hconfig : n.config with
      | true =>
          rw [recordChange_of_config _ _ hn hconfig]
          constructor
          · intro h
            exact ⟨⟨n, rfl, hconfig⟩, (Prod.mk.inj (Except.ok.inj h)).2.symm⟩
          · rintro ⟨-, rfl⟩
            rfl
      | false =>
          rw [recordChange_of_not_config _ _ hn hconfig]
          simp [hconfig]

/-- In a rooted tree a change changes the nodes of a lineage, each once. -/
theorem Rooted.changed_lineage (h : t.Rooted) (hid : id < t.size) :
    Changed supply time (t.lineage id) t ((t.lineage id).foldl (touch supply time) t) :=
  changed_foldl_touch (h.nodup_lineage hid) t

/-! ## Going up node by node -/

/-- To go up from a node, giving each node a revision on the way, leads from the first tree to the
    second one, where it ends well or at a node that does not exist. Nothing here keeps it from
    ending half-way or from going on for ever; it goes where the links lead. -/
inductive Climbs (supply : EntityTag.Supply) (time : Instant) :
    Tree → Option Nat → Tree → Except Error Unit → Prop
  | done {t : Tree} : Climbs supply time t none t (.ok ())
  | fail {t : Tree} {id : Nat} {e : Error} :
      t.node id = .error e → Climbs supply time t (some id) t (.error e)
  | up {t u : Tree} {id : Nat} {n : Node} {outcome : Except Error Unit} :
      t.node id = .ok n → Climbs supply time (touch supply time t id) n.parent u outcome →
        Climbs supply time t (some id) u outcome

theorem climbs_none_iff {u : Tree} {outcome : Except Error Unit} :
    Climbs supply time t none u outcome ↔ u = t ∧ outcome = .ok () := by
  constructor
  · intro h
    cases h
    exact ⟨rfl, rfl⟩
  · rintro ⟨rfl, rfl⟩
    exact .done

theorem climbs_some_iff {u : Tree} {outcome : Except Error Unit} (hid : id < t.size) :
    Climbs supply time t (some id) u outcome ↔
      Climbs supply time (touch supply time t id) (t.parentOf? id) u outcome := by
  obtain ⟨n, hn⟩ := exists_getElem? hid
  have hnode := node_eq_ok_iff.2 hn
  rw [parentOf?_of_getElem? hn]
  constructor
  · intro h
    cases h with
    | fail herror => exact absurd (hnode.symm.trans herror) (by simp)
    | up hnode' hup =>
        obtain rfl := Except.ok.inj (hnode.symm.trans hnode')
        exact hup
  · exact .up hnode

/-- **Going up from a node of a rooted tree ends, without fault and in one tree only: the one in
    which the lineage is changed.** -/
theorem Rooted.climbs_iff (h : t.Rooted) (hid : id < t.size) {u : Tree}
    {outcome : Except Error Unit} :
    Climbs supply time t (some id) u outcome ↔
      u = (t.lineage id).foldl (touch supply time) t ∧ outcome = .ok () := by
  induction id using Nat.strongRecOn generalizing t with
  | _ id ih =>
    rw [climbs_some_iff hid]
    cases hparent : t.parentOf? id with
    | none => rw [lineage_of_no_parent hparent, climbs_none_iff, List.foldl_cons, List.foldl_nil]
    | some above =>
        -- the touched tree has the same links, so the way up goes on as in the tree before
        have hlt := h.parent_lt hparent
        have htouched : (touch supply time t id).Rooted :=
          (changed_foldl_touch (List.pairwise_singleton _ id) t).rooted h
        have habove : above < (touch supply time t id).size := by
          rw [size_touch]
          omega
        rw [ih above hlt htouched habove, lineage_touch, lineage_of_parent hparent hlt,
          List.foldl_cons]

end Restconf.Revision.Tree
