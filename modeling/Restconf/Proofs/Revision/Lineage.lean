import Mathlib.Data.List.Chain
import Mathlib.Logic.Relation
import Restconf.Revision.Tree

set_option autoImplicit false

/-! # Links of a revision tree

The links of a tree lead from a node to the one above. In a `Rooted` tree they end at the root and
go to smaller numbers only, so properties of nodes can be shown from the root down
(`Rooted.induction`).

The lineage of a node is then the way up along the links, from the node itself to the root
(`Rooted.isChain_lineage`, `Rooted.getLast?_lineage`), and holds exactly the nodes that are over it
(`Rooted.mem_lineage_iff`). -/

namespace Restconf.Revision.Tree

variable {t t' : Tree} {id above : Nat}

/-- There is a root without a node above, which holds configuration, and every other node has one of
    a smaller number above. -/
structure Rooted (t : Tree) : Prop where
  root : ∃ n, t.nodes[rootId]? = some n ∧ n.parent = none ∧ n.config = true
  below : ∀ id n, id ≠ rootId → t.nodes[id]? = some n → ∃ above, n.parent = some above ∧ above < id

/-- The one node is the other, or lies somewhere above it. -/
def IsOver (t : Tree) (above id : Nat) : Prop :=
  Relation.ReflTransGen (fun a b => t.parentOf? a = some b) id above

/-! ## Single links -/

theorem parentOf?_of_getElem? {n : Node} (h : t.nodes[id]? = some n) :
    t.parentOf? id = n.parent := by
  rw [parentOf?, h, Option.bind_some]

theorem exists_getElem? (h : id < t.size) : ∃ n, t.nodes[id]? = some n :=
  ⟨_, List.getElem?_eq_getElem h⟩

theorem lt_size_of_getElem? {n : Node} (h : t.nodes[id]? = some n) : id < t.size :=
  (List.getElem?_eq_some_iff.1 h).1

theorem Rooted.parentOf?_root (h : t.Rooted) : t.parentOf? rootId = none := by
  obtain ⟨n, hn, hparent, -⟩ := h.root
  rw [parentOf?_of_getElem? hn, hparent]

/-- Links go to smaller numbers. -/
theorem Rooted.parent_lt (h : t.Rooted) (hparent : t.parentOf? id = some above) : above < id := by
  by_cases hroot : id = rootId
  · rw [hroot, h.parentOf?_root] at hparent
    exact absurd hparent (by simp)
  · obtain ⟨n, hn, hlink⟩ := Option.bind_eq_some_iff.1 hparent
    obtain ⟨above', habove, hlt⟩ := h.below id n hroot hn
    obtain rfl : above' = above := Option.some.inj (habove.symm.trans hlink)
    exact hlt

theorem Rooted.exists_parent (h : t.Rooted) (hne : id ≠ rootId) (hid : id < t.size) :
    ∃ above, t.parentOf? id = some above := by
  obtain ⟨n, hn⟩ := exists_getElem? hid
  obtain ⟨above, habove, -⟩ := h.below id n hne hn
  exact ⟨above, by rw [parentOf?_of_getElem? hn, habove]⟩

/-- What holds of the root, and of every node below one that it holds of, holds of all nodes. -/
@[elab_as_elim]
theorem Rooted.induction (h : t.Rooted) {motive : Nat → Prop} (root : motive rootId)
    (below : ∀ id above, t.parentOf? id = some above → above < id → motive above → motive id)
    (hid : id < t.size) : motive id := by
  induction id using Nat.strongRecOn with
  | _ id ih =>
    by_cases hroot : id = rootId
    · rw [hroot]
      exact root
    · obtain ⟨above, habove⟩ := h.exists_parent hroot hid
      have hlt := h.parent_lt habove
      exact below id above habove hlt (ih above hlt (by omega))

/-! ## Lineages -/

theorem lineage_of_no_parent (h : t.parentOf? id = none) : t.lineage id = [id] := by
  rw [lineage, h]

theorem lineage_of_parent (h : t.parentOf? id = some above) (hlt : above < id) :
    t.lineage id = id :: t.lineage above := by
  rw [lineage, h]
  simp only [hlt, if_true]

theorem head?_lineage (t : Tree) (id : Nat) : (t.lineage id).head? = some id := by
  rw [lineage]
  split
  · rfl
  · split <;> rfl

/-- Lineages depend on nothing but the links. -/
theorem lineage_congr (h : ∀ j, t.parentOf? j = t'.parentOf? j) (id : Nat) :
    t.lineage id = t'.lineage id := by
  induction id using Nat.strongRecOn with
  | _ id ih =>
    cases hparent : t.parentOf? id with
    | none => rw [lineage_of_no_parent hparent, lineage_of_no_parent ((h id).symm.trans hparent)]
    | some above =>
        rw [lineage, lineage, ← h id, hparent]
        by_cases hlt : above < id
        · simp only [hlt, if_true, ih above hlt]
        · simp only [hlt, if_false]

/-- The lineage goes up link by link. -/
theorem Rooted.isChain_lineage (h : t.Rooted) (hid : id < t.size) :
    (t.lineage id).IsChain fun a b => t.parentOf? a = some b := by
  refine h.induction ?_ ?_ hid
  · rw [lineage_of_no_parent h.parentOf?_root]
    exact .singleton _
  · intro id above hparent hlt ih
    rw [lineage_of_parent hparent hlt, List.isChain_cons, head?_lineage]
    refine ⟨?_, ih⟩
    rintro _ ⟨⟩
    exact hparent

/-- The lineage ends at the root. -/
theorem Rooted.getLast?_lineage (h : t.Rooted) (hid : id < t.size) :
    (t.lineage id).getLast? = some rootId := by
  refine h.induction ?_ ?_ hid
  · rw [lineage_of_no_parent h.parentOf?_root]
    rfl
  · intro id above hparent hlt ih
    rw [lineage_of_parent hparent hlt, List.getLast?_cons, ih]
    rfl

/-- No node is twice in a lineage, since the numbers go down. -/
theorem Rooted.nodup_lineage (h : t.Rooted) (hid : id < t.size) : (t.lineage id).Nodup := by
  have hdown : (t.lineage id).IsChain (· > ·) :=
    (h.isChain_lineage hid).imp fun _ _ hlink => h.parent_lt hlink
  exact (List.isChain_iff_pairwise.1 hdown).imp Nat.ne_of_gt

theorem Rooted.mem_lineage_iff (h : t.Rooted) (hid : id < t.size) :
    above ∈ t.lineage id ↔ t.IsOver above id := by
  refine h.induction ?_ ?_ hid
  · rw [lineage_of_no_parent h.parentOf?_root, List.mem_singleton, IsOver,
      Relation.ReflTransGen.cases_head_iff, h.parentOf?_root]
    simp [eq_comm]
  · intro id parent hparent hlt ih
    rw [lineage_of_parent hparent hlt, List.mem_cons, ih, IsOver, IsOver,
      Relation.ReflTransGen.cases_head_iff (a := id), hparent]
    simp [eq_comm]

theorem Rooted.le_of_mem_lineage (h : t.Rooted) (hid : id < t.size)
    (hmem : above ∈ t.lineage id) : above ≤ id := by
  rw [h.mem_lineage_iff hid] at hmem
  refine Relation.ReflTransGen.head_induction_on hmem le_rfl ?_
  intro a b hlink _ hle
  have := h.parent_lt hlink
  omega

end Restconf.Revision.Tree
