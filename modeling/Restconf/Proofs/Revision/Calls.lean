import Restconf.Proofs.Revision.Change

set_option autoImplicit false

/-! # Runs of a revision tree

A tree starts with its root and grows and changes by calls (`grown`). Every call keeps it rooted
(`Rooted.after`), so a change always ends, and either changes one lineage up to the root or nothing
at all (`rooted_grown_changed_lineage`). -/

namespace Restconf.Revision

/-- A call that may change a tree. -/
inductive Call where
  | add (parent : Nat) (name : String) (config : Bool)
  | recordChange (id : Nat) (time : Instant)

namespace Tree

variable {supply : EntityTag.Supply} {t : Tree}

/-- The tree after a call. A call that fails has no tree to give, and the old one stays. -/
def after (supply : EntityTag.Supply) (t : Tree) : Call → Tree
  | .add parent name config =>
    match t.add supply parent name config with
    | .ok (_, t') => t'
    | .error _ => t
  | .recordChange id time =>
    match t.recordChange supply id time with
    | .ok (_, t') => t'
    | .error _ => t

/-- The nodes that a call gives a tag, in the order in which the tags are taken from the supply. -/
def tagged (t : Tree) : Call → List Nat
  | .add parent _ _ => if parent < t.size then [t.size] else []
  | .recordChange id _ => if t.nodes[id]?.any Node.config then t.lineage id else []

/-- The tree that some calls make of a root alone. -/
def grown (supply : EntityTag.Supply) (name : String) (time : Instant) (calls : List Call) : Tree :=
  calls.foldl (after supply) (ofRoot supply name time)

theorem grown_concat (name : String) (time : Instant) (calls : List Call) (call : Call) :
    grown supply name time (calls ++ [call]) =
      (grown supply name time calls).after supply call := by
  rw [grown, List.foldl_concat]
  rfl

/-! ## Single calls -/

theorem add_of_size_le (supply : EntityTag.Supply) {parent : Nat} (h : t.size ≤ parent)
    (name : String) (config : Bool) :
    t.add supply parent name config = .error (.unknownNode parent) := by
  simp only [add, node_eq_error h]

/-- A node that is added is the last one, with the time of the node above and a new tag. -/
theorem add_of_getElem? (supply : EntityTag.Supply) {parent : Nat} {above : Node}
    (h : t.nodes[parent]? = some above) (name : String) (config : Bool) :
    t.add supply parent name config = .ok (t.size, ⟨t.nodes ++
      [⟨name, some parent, config, ⟨above.revision.lastModified, supply t.taken⟩⟩],
        t.taken + 1⟩) := by
  simp only [add, node_eq_ok_iff.2 h]

/-- A call does nothing, adds a node, or changes a lineage. -/
theorem after_cases (supply : EntityTag.Supply) (ht : t.Rooted) (call : Call) :
    (t.tagged call = [] ∧ t.after supply call = t) ∨
    (∃ parent name config above, call = .add parent name config ∧
      t.nodes[parent]? = some above ∧ t.tagged call = [t.size] ∧
      t.after supply call = ⟨t.nodes ++ [⟨name, some parent, config,
        ⟨above.revision.lastModified, supply t.taken⟩⟩], t.taken + 1⟩) ∨
    (∃ id time, call = .recordChange id time ∧ id < t.size ∧
      t.recordChange supply id time = .ok (true, t.after supply call) ∧
      t.tagged call = t.lineage id ∧
      Changed supply time (t.lineage id) t (t.after supply call)) := by
  cases call with
  | add parent name config =>
      cases hn : t.nodes[parent]? with
      | none =>
          have hsize : t.size ≤ parent := List.getElem?_eq_none_iff.1 hn
          have hadd := add_of_size_le supply hsize name config
          exact Or.inl ⟨if_neg (Nat.not_lt.2 hsize), by simp only [after, hadd]⟩
      | some above =>
          have hadd := add_of_getElem? supply hn name config
          refine Or.inr (Or.inl ⟨parent, name, config, above, rfl, hn, ?_, ?_⟩)
          · exact if_pos (lt_size_of_getElem? hn)
          · simp only [after, hadd]
  | recordChange id time =>
      cases hn : t.nodes[id]? with
      | none =>
          have hchange := recordChange_of_size_le supply time
            (List.getElem?_eq_none_iff.1 hn)
          exact Or.inl ⟨by simp [tagged, hn], by simp only [after, hchange]⟩
      | some n =>
          cases hconfig : n.config with
          | false =>
              have hchange := recordChange_of_not_config supply time hn hconfig
              exact Or.inl ⟨by simp [tagged, hn, hconfig], by simp only [after, hchange]⟩
          | true =>
              have hid := lt_size_of_getElem? hn
              have hchange := recordChange_of_config supply time hn hconfig
              have hafter : t.after supply (.recordChange id time) =
                  (t.lineage id).foldl (touch supply time) t := by
                simp only [after, hchange]
              refine Or.inr (Or.inr ⟨id, time, rfl, hid, ?_, by simp [tagged, hn, hconfig], ?_⟩)
              · rw [hafter, hchange]
              · rw [hafter]
                exact ht.changed_lineage hid

/-! ## What every call keeps -/

theorem rooted_ofRoot (supply : EntityTag.Supply) (name : String) (time : Instant) :
    (ofRoot supply name time).Rooted := by
  constructor
  · exact ⟨_, rfl, rfl, rfl⟩
  · intro id n hid hn
    have := lt_size_of_getElem? hn
    simp only [ofRoot, size, List.length_singleton, rootId] at this hid
    omega

/-- A node below one of a rooted tree is one more node of a rooted tree. -/
theorem Rooted.concat (h : t.Rooted) {parent : Nat} (hparent : parent < t.size) {n : Node}
    (hn : n.parent = some parent) (taken : Nat) : (Tree.mk (t.nodes ++ [n]) taken).Rooted := by
  obtain ⟨root, hroot, hlinks⟩ := h.root
  constructor
  · exact ⟨root, by rw [List.getElem?_append_left (lt_size_of_getElem? hroot), hroot], hlinks⟩
  · intro id m hid hm
    by_cases hlt : id < t.size
    · rw [List.getElem?_append_left hlt] at hm
      exact h.below id m hid hm
    · -- beyond the old nodes there is only the new one
      rw [List.getElem?_append_right (Nat.le_of_not_lt hlt), List.getElem?_singleton] at hm
      split at hm
      · obtain rfl := Option.some.inj hm
        exact ⟨parent, hn, by omega⟩
      · exact absurd hm (by simp)

theorem Rooted.after (h : t.Rooted) (call : Call) : (t.after supply call).Rooted := by
  rcases after_cases supply h call with
    ⟨-, hsame⟩ | ⟨parent, name, config, above, -, habove, -, hadd⟩ |
      ⟨id, time, -, -, -, -, hchanged⟩
  · rw [hsame]
    exact h
  · rw [hadd]
    exact h.concat (lt_size_of_getElem? habove) rfl _
  · exact hchanged.rooted h

/-- **Every run keeps the tree rooted.** -/
theorem rooted_grown (supply : EntityTag.Supply) (name : String) (time : Instant)
    (calls : List Call) : (grown supply name time calls).Rooted := by
  induction calls using List.reverseRecOn with
  | nil => exact rooted_ofRoot supply name time
  | append_singleton calls call ih =>
      rw [grown_concat]
      exact ih.after call

/-! ## Changes and additions in a run -/

/-- **In any run the tree stays rooted. A change of a configuration node always ends: it changes
    exactly the nodes from that node up to the root, and to go up node by node comes to the same.
    Any other change, and an addition that fails, leaves the tree as it is, and an addition that
    succeeds appends one node.** -/
theorem rooted_grown_changed_lineage (supply : EntityTag.Supply) (name : String) (start : Instant)
    (calls : List Call) (t : Tree) (ht : t = grown supply name start calls) :
    t.Rooted ∧
    (∀ id n time, t.nodes[id]? = some n → n.config = true →
      ∃ ids t', t.recordChange supply id time = .ok (true, t') ∧
        ids.head? = some id ∧ ids.IsChain (fun a b => t.parentOf? a = some b) ∧
        ids.getLast? = some rootId ∧ Changed supply time ids t t' ∧
        ∀ u outcome, Climbs supply time t (some id) u outcome ↔ u = t' ∧ outcome = .ok ()) ∧
    (∀ id n time, t.nodes[id]? = some n → n.config = false →
      t.recordChange supply id time = .ok (false, t)) ∧
    (∀ id time, t.size ≤ id →
      t.recordChange supply id time = .error (.unknownNode id) ∧
        t.after supply (.recordChange id time) = t) ∧
    (∀ parent child config, t.size ≤ parent →
      t.add supply parent child config = .error (.unknownNode parent) ∧
        t.after supply (.add parent child config) = t) ∧
    (∀ parent child config, parent < t.size →
      ∃ n t', t.add supply parent child config = .ok (t.size, t') ∧ t'.nodes = t.nodes ++ [n] ∧
        n.name = child ∧ n.parent = some parent ∧ n.config = config) := by
  have hrooted : t.Rooted := ht ▸ rooted_grown supply name start calls
  refine ⟨hrooted, ?_, ?_, ?_, ?_, ?_⟩
  · intro id n time hn hconfig
    have hid := lt_size_of_getElem? hn
    exact ⟨t.lineage id, _, recordChange_of_config supply time hn hconfig, head?_lineage t id,
      hrooted.isChain_lineage hid, hrooted.getLast?_lineage hid, hrooted.changed_lineage hid,
      fun _ _ => hrooted.climbs_iff hid⟩
  · intro id n time hn hconfig
    exact recordChange_of_not_config supply time hn hconfig
  · intro id time hid
    have hchange := recordChange_of_size_le supply time hid
    exact ⟨hchange, by simp only [after, hchange]⟩
  · intro parent child config hparent
    have hadd := add_of_size_le supply hparent child config
    exact ⟨hadd, by simp only [after, hadd]⟩
  · intro parent child config hparent
    obtain ⟨above, habove⟩ := exists_getElem? hparent
    exact ⟨_, _, add_of_getElem? supply habove child config, rfl, rfl, rfl, rfl⟩

theorem rooted_grown_changed_lineage_library :
    ∃ t ids t', t.size = 4 ∧ t.Rooted ∧
      t.recordChange (.seeded 7) 2 (.ofSeconds 300) = .ok (true, t') ∧
      ids.head? = some 2 ∧ ids.getLast? = some rootId ∧
      Changed (.seeded 7) (.ofSeconds 300) ids t t' ∧
      t.recordChange (.seeded 7) 3 (.ofSeconds 300) = .ok (false, t) ∧
      t.after (.seeded 7) (.add 4 "album" true) = t := by
  let t := grown (.seeded 7) "data" (.ofSeconds 0)
    [.add 0 "jukebox" true, .add 1 "library" true, .add 1 "statistics" false]
  have hlibrary : ∃ n, t.nodes[2]? = some n ∧ n.config = true := ⟨_, rfl, rfl⟩
  have hstatistics : ∃ n, t.nodes[3]? = some n ∧ n.config = false := ⟨_, rfl, rfl⟩
  obtain ⟨n, hn, hconfig⟩ := hlibrary
  obtain ⟨m, hm, hstate⟩ := hstatistics
  obtain ⟨hrooted, hchange, hnothing, -, hfail, -⟩ :=
    rooted_grown_changed_lineage (.seeded 7) "data" (.ofSeconds 0) _ t rfl
  obtain ⟨ids, t', ht', hhead, -, hlast, hchanged, -⟩ := hchange 2 n (.ofSeconds 300) hn hconfig
  exact ⟨t, ids, t', rfl, hrooted, ht', hhead, hlast, hchanged,
    hnothing 3 m (.ofSeconds 300) hm hstate, (hfail 4 "album" true le_rfl).2⟩

end Tree

end Restconf.Revision
