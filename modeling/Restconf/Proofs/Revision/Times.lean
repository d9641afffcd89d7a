import Mathlib.Order.Bounds.Defs
import Restconf.Proofs.Revision.Calls

set_option autoImplicit false

/-! # Times of modification

A change gives its time to the nodes of one lineage, and a node that is added takes over the time of
the one above. If the changes of a run are recorded in the order of their times, no node is newer
than the one above it, so the datastore is as new as the newest node
(`isGreatest_lastModified_root`).

Nodes beside the lineage of a change keep older times, so what carries the induction is that the
time of the root is that of the latest change and bounds all others (`Dated`). -/

namespace Restconf

instance : Preorder Instant where
  le_refl a := Or.inr ⟨rfl, Nat.le_refl a.nanos⟩
  le_trans a b c hab hbc := by
    rcases hab with hab | ⟨hab, hab'⟩
    · rcases hbc with hbc | ⟨hbc, -⟩
      · exact Or.inl (Int.lt_trans hab hbc)
      · exact Or.inl (hbc ▸ hab)
    · rcases hbc with hbc | ⟨hbc, hbc'⟩
      · exact Or.inl (hab ▸ hbc)
      · exact Or.inr ⟨hab.trans hbc, Nat.le_trans hab' hbc'⟩

namespace Revision

/-- The time of the call, if it is a change that leaves a trace in the tree. -/
def Call.changeTime? (supply : EntityTag.Supply) (t : Tree) : Call → Option Instant
  | .add _ _ _ => none
  | .recordChange id time =>
    match t.recordChange supply id time with
    | .ok (true, _) => some time
    | _ => none

namespace Tree

variable {supply : EntityTag.Supply} {latest time : Instant} {t t' : Tree}

/-- The times of the changes that leave a trace, in the order of the calls. -/
def changeTimes (supply : EntityTag.Supply) : Tree → List Call → List Instant
  | _, [] => []
  | t, call :: calls =>
    (call.changeTime? supply t).toList ++ changeTimes supply (t.after supply call) calls

/-- The root was modified at `latest`, and no node after the one above it. -/
structure Dated (latest : Instant) (t : Tree) : Prop where
  root : ∃ n, t.nodes[rootId]? = some n ∧ n.revision.lastModified = latest
  above : ∀ (id : Nat) (n : Node), t.nodes[id]? = some n → ∀ parent, n.parent = some parent →
    ∃ m : Node, t.nodes[parent]? = some m ∧ n.revision.lastModified ≤ m.revision.lastModified

/-- No node was modified after the root. -/
theorem Dated.le_latest (h : t.Dated latest) (ht : t.Rooted) {id : Nat} {n : Node}
    (hn : t.nodes[id]? = some n) : n.revision.lastModified ≤ latest := by
  induction id using Nat.strongRecOn generalizing n with
  | _ id ih =>
    by_cases hroot : id = rootId
    · obtain ⟨root, hrootNode, rfl⟩ := h.root
      obtain rfl : root = n := Option.some.inj (hrootNode.symm.trans (hroot ▸ hn))
      exact le_refl _
    · obtain ⟨parent, hparent, hlt⟩ := ht.below id n hroot hn
      obtain ⟨m, hm, hle⟩ := h.above id n hn parent hparent
      exact le_trans hle (ih parent hlt hm)

/-! ## Single calls -/

theorem dated_ofRoot (supply : EntityTag.Supply) (name : String) (time : Instant) :
    (ofRoot supply name time).Dated time := by
  refine ⟨⟨_, rfl, rfl⟩, fun id n hn parent hparent => ?_⟩
  obtain rfl : id = rootId := Nat.lt_one_iff.1 (lt_size_of_getElem? hn)
  obtain rfl := Option.some.inj hn
  exact absurd hparent (by simp)

/-- A node that is added with the time of the one above is in order. -/
theorem Dated.concat (h : t.Dated latest) {parent : Nat} {above n : Node}
    (habove : t.nodes[parent]? = some above) (hparent : n.parent = some parent)
    (htime : n.revision.lastModified = above.revision.lastModified) (taken : Nat) :
    (Tree.mk (t.nodes ++ [n]) taken).Dated latest := by
  have hold : ∀ {id : Nat} {m : Node}, t.nodes[id]? = some m → (t.nodes ++ [n])[id]? = some m := by
    intro id m hm
    rw [List.getElem?_append_left (lt_size_of_getElem? hm), hm]
  obtain ⟨root, hroot, hlatest⟩ := h.root
  refine ⟨⟨root, hold hroot, hlatest⟩, fun id m hm parent' hparent' => ?_⟩
  by_cases hlt : id < t.size
  · rw [List.getElem?_append_left hlt] at hm
    obtain ⟨m', hm', hle⟩ := h.above id m hm parent' hparent'
    exact ⟨m', hold hm', hle⟩
  · -- beyond the old nodes there is only the new one
    rw [List.getElem?_append_right (Nat.le_of_not_lt hlt), List.getElem?_singleton] at hm
    split at hm
    · obtain rfl := Option.some.inj hm
      obtain rfl : parent = parent' := Option.some.inj (hparent.symm.trans hparent')
      exact ⟨above, hold habove, htime.le⟩
    · exact absurd hm (by simp)

theorem Changed.lastModified_eq {ids : List Nat} (h : Changed supply time ids t t') {j : Nat}
    (hj : j ∈ ids) {n' : Node} (hn' : t'.nodes[j]? = some n') :
    n'.revision.lastModified = time := by
  obtain ⟨k, hk⟩ := List.mem_iff_getElem?.1 hj
  obtain ⟨n, hn, -⟩ := h.exists_node hn'
  obtain rfl := Option.some.inj ((h.changed k j n hk hn).symm.trans hn')
  rfl

/-- What is above a node of a lineage is in it, too. -/
theorem Rooted.mem_lineage_of_parent (h : t.Rooted) {id j parent : Nat} (hid : id < t.size)
    (hj : j ∈ t.lineage id) (hparent : t.parentOf? j = some parent) : parent ∈ t.lineage id := by
  rw [h.mem_lineage_iff hid] at hj ⊢
  exact hj.tail hparent

/-- A change of a lineage that is not older than the root makes it the newest. -/
theorem Dated.changed (h : t.Dated latest) (ht : t.Rooted) {id : Nat} (hid : id < t.size)
    (hle : latest ≤ time) (hchanged : Changed supply time (t.lineage id) t t') :
    t'.Dated time := by
  have hnode : ∀ j n, t.nodes[j]? = some n → ∃ n', t'.nodes[j]? = some n' := fun j n hn =>
    exists_getElem? (hchanged.size ▸ lt_size_of_getElem? hn)
  constructor
  · obtain ⟨root, hroot, -⟩ := h.root
    obtain ⟨root', hroot'⟩ := hnode rootId root hroot
    have hmem : rootId ∈ t.lineage id := List.mem_of_getLast? (ht.getLast?_lineage hid)
    exact ⟨root', hroot', hchanged.lastModified_eq hmem hroot'⟩
  · intro j n' hn' parent hparent
    obtain ⟨n, hn, -, hlink, -⟩ := hchanged.exists_node hn'
    obtain ⟨m, hm, hnm⟩ := h.above j n hn parent (hlink ▸ hparent)
    obtain ⟨m', hm'⟩ := hnode parent m hm
    refine ⟨m', hm', ?_⟩
    by_cases hj : j ∈ t.lineage id
    · -- the change goes on to the node above
      have hlink' : t.parentOf? j = some parent := by
        rw [parentOf?_of_getElem? hn, ← hlink, hparent]
      have habove := ht.mem_lineage_of_parent hid hj hlink'
      rw [hchanged.lastModified_eq hj hn', hchanged.lastModified_eq habove hm']
    · obtain rfl : n = n' := Option.some.inj (hn.symm.trans ((hchanged.kept j hj).symm.trans hn'))
      by_cases hparent' : parent ∈ t.lineage id
      · rw [hchanged.lastModified_eq hparent' hm']
        exact le_trans (h.le_latest ht hn) hle
      · obtain rfl : m = m' :=
          Option.some.inj (hm.symm.trans ((hchanged.kept parent hparent').symm.trans hm'))
        exact hnm

theorem changeTime?_eq_some_iff {call : Call} :
    call.changeTime? supply t = some time ↔
      ∃ id t', call = .recordChange id time ∧ t.recordChange supply id time = .ok (true, t') := by
  cases call with
  | add parent name config => simp [Call.changeTime?]
  | recordChange id time' =>
      constructor
      · intro h
        rw [Call.changeTime?] at h
        split at h
        · next t' hchange =>
            obtain rfl := Option.some.inj h
            exact ⟨id, t', rfl, hchange⟩
        · exact absurd h (by simp)
      · rintro ⟨id', t', hcall, hchange⟩
        obtain ⟨rfl, rfl⟩ := Call.recordChange.inj hcall
        rw [Call.changeTime?, hchange]

/-- A call that gives no node a tag is no change that leaves a trace. -/
theorem changeTime?_of_tagged_eq_nil {call : Call} (h : t.tagged call = []) :
    call.changeTime? supply t = none := by
  cases htime : call.changeTime? supply t with
  | none => rfl
  | some time =>
      obtain ⟨id, t', rfl, hchange⟩ := changeTime?_eq_some_iff.1 htime
      obtain ⟨⟨n, hn, hconfig⟩, -⟩ := recordChange_eq_ok_true_iff.1 hchange
      have hnil : t.lineage id = [] := by simpa [tagged, hn, hconfig] using h
      exact absurd (head?_lineage t id) (by simp [hnil])

/-- A call keeps the times in order, unless it is a change that is older than the root. -/
theorem Dated.after (h : t.Dated latest) (ht : t.Rooted) (call : Call)
    (hle : ∀ time ∈ call.changeTime? supply t, latest ≤ time) :
    (t.after supply call).Dated ((call.changeTime? supply t).getD latest) := by
  rcases after_cases supply ht call with
    ⟨htagged, hsame⟩ | ⟨parent, name, config, above, rfl, habove, -, hadd⟩ |
      ⟨id, time, rfl, hid, hchange, -, hchanged⟩
  · rw [changeTime?_of_tagged_eq_nil htagged, hsame]
    exact h
  · rw [hadd]
    refine h.concat habove ?_ ?_ _
    · rfl
    · rfl
  · have htime : (Call.recordChange id time).changeTime? supply t = some time :=
      changeTime?_eq_some_iff.2 ⟨id, _, rfl, hchange⟩
    rw [htime]
    exact h.changed ht hid (hle time htime) hchanged

/-! ## Runs -/

theorem Dated.afterAll (h : t.Dated latest) (ht : t.Rooted) (calls : List Call)
    (htimes : (latest :: changeTimes supply t calls).Pairwise (· ≤ ·)) :
    (calls.foldl (Tree.after supply) t).Dated
      ((changeTimes supply t calls).getLast?.getD latest) := by
  induction calls generalizing latest t with
  | nil => exact h
  | cons call calls ih =>
      rw [changeTimes] at htimes ⊢
      cases htime : call.changeTime? supply t with
      | none =>
          rw [htime] at htimes
          have hle : ∀ time ∈ call.changeTime? supply t, latest ≤ time := by simp [htime]
          have hafter := h.after ht call hle
          rw [htime] at hafter
          exact ih hafter (ht.after call) htimes
      | some time =>
          rw [htime, Option.toList_some, List.singleton_append, List.pairwise_cons] at htimes
          obtain ⟨hlatest, hrest⟩ := htimes
          have hle : ∀ time' ∈ call.changeTime? supply t, latest ≤ time' := by
            intro time' htime'
            obtain rfl : time = time' := Option.some.inj (htime.symm.trans htime')
            exact hlatest time List.mem_cons_self
          have hafter := h.after ht call hle
          rw [htime] at hafter
          rw [Option.toList_some, List.singleton_append, List.getLast?_cons, Option.getD_some]
          exact ih hafter (ht.after call) hrest

/-- **If the changes of a run that leave a trace are recorded in the order of their times, none
    before the start, then no node is newer than the one above it, the time of the datastore is the
    greatest of all nodes, and it is that of the latest change.** -/
theorem isGreatest_lastModified_root (supply : EntityTag.Supply) (name : String) (start : Instant)
    (calls : List Call)
    (htimes : (start :: changeTimes supply (ofRoot supply name start) calls).Pairwise (· ≤ ·))
    (t : Tree) (hgrown : t = grown supply name start calls) :
    (∀ id n, t.node id = .ok n → ∀ parent, n.parent = some parent →
      ∃ m, t.node parent = .ok m ∧ n.revision.lastModified ≤ m.revision.lastModified) ∧
    ∃ r, t.rootRevision? = some r ∧
      IsGreatest {time | ∃ id n, t.node id = .ok n ∧ n.revision.lastModified = time}
        r.lastModified ∧
      r.lastModified =
        (changeTimes supply (ofRoot supply name start) calls).getLast?.getD start := by
  subst hgrown
  have hrooted := rooted_grown supply name start calls
  have hdated := (dated_ofRoot supply name start).afterAll (rooted_ofRoot supply name start) calls
    htimes
  obtain ⟨root, hroot, hlatest⟩ := hdated.root
  simp only [node_eq_ok_iff]
  refine ⟨hdated.above, root.revision, ?_, ⟨⟨rootId, root, hroot, rfl⟩, ?_⟩, hlatest⟩
  · rw [rootRevision?, List.head?_eq_getElem?]
    exact congrArg (Option.map Node.revision) hroot
  · rintro time ⟨id, n, hn, rfl⟩
    rw [hlatest]
    exact hdated.le_latest hrooted hn

/-- Changes that fail or leave no trace may have any time, and two changes may have the same. -/
theorem isGreatest_lastModified_root_library :
    ∃ (calls : List Call) (r : Revision) (track : Node),
      changeTimes (.seeded 7) (ofRoot (.seeded 7) "data" (.ofSeconds 100)) calls =
        [.ofSeconds 300, .ofSeconds 300, ⟨300, 5⟩] ∧
      (grown (.seeded 7) "data" (.ofSeconds 100) calls).node 4 = .ok track ∧
      (grown (.seeded 7) "data" (.ofSeconds 100) calls).rootRevision? = some r ∧
      r.lastModified = ⟨300, 5⟩ ∧ track.revision.lastModified ≤ r.lastModified := by
  let calls : List Call := [.add 0 "jukebox" true, .add 1 "library" true,
    .add 1 "statistics" false, .recordChange 2 (.ofSeconds 300), .recordChange 3 (.ofSeconds 5),
    .add 2 "track" true, .recordChange 9 (.ofSeconds 7), .recordChange 1 (.ofSeconds 300),
    .recordChange 1 ⟨300, 5⟩]
  have htimes : changeTimes (.seeded 7) (ofRoot (.seeded 7) "data" (.ofSeconds 100)) calls =
      [.ofSeconds 300, .ofSeconds 300, ⟨300, 5⟩] := by decide +kernel
  have hsize : (grown (.seeded 7) "data" (.ofSeconds 100) calls).size = 5 := by decide +kernel
  obtain ⟨track, htrack⟩ := exists_getElem? (hsize.symm ▸ (by decide : 4 < 5))
  rw [← node_eq_ok_iff] at htrack
  obtain ⟨-, r, hr, ⟨-, hnewest⟩, hlatest⟩ :=
    isGreatest_lastModified_root (.seeded 7) "data" (.ofSeconds 100) calls
      (by rw [htimes]; decide) _ rfl
  rw [htimes] at hlatest
  exact ⟨calls, r, track, htimes, htrack, hr, hlatest, hnewest ⟨4, track, htrack, rfl⟩⟩

end Tree

end Revision

end Restconf
