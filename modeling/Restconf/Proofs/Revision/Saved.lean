import Restconf.Proofs.Revision.EntityTag
import Restconf.Proofs.Revision.Log

set_option autoImplicit false

/-! # Saved tags

A client saves tags of nodes while a tree grows and changes, and lists them in a header later on.
The header then lists the current tag of a node just if one of the tags was saved from this node and
no change has reached the node since (`isListedIn_saved_iff`). What counts as reaching is said
without the log: a change that left a trace, of the node itself or of one that it is over
(`Call.Reaches`); `mem_taggedAll_iff` finds such changes in the log. -/

namespace Restconf.Revision

open EntityTag (Listed header)

/-- The call is a change of the node or of one below it, and leaves a trace in the tree. -/
def Call.Reaches (supply : EntityTag.Supply) (t : Tree) (n : Nat) (call : Call) : Prop :=
  ∃ id time t', call = .recordChange id time ∧
    t.recordChange supply id time = .ok (true, t') ∧ t.IsOver n id

/-- A tag as it was saved from the node `id` when some calls of a run had been made. -/
structure Saved where
  id : Nat
  /-- The number of calls made before. -/
  moment : Nat
  listed : Listed

namespace Tree

/-! ## Changes in the log -/

theorem mem_tagged_iff (supply : EntityTag.Supply) {t : Tree} (ht : t.Rooted) {n : Nat}
    (hn : n < t.size) (call : Call) : n ∈ t.tagged call ↔ call.Reaches supply t n := by
  cases call with
  | add parent name config =>
      -- the only node that an addition gives a tag is a new one
      have hnot : n ∉ t.tagged (.add parent name config) := by
        rw [tagged]
        split
        · rw [List.mem_singleton]
          exact hn.ne
        · exact List.not_mem_nil
      constructor
      · exact fun h => absurd h hnot
      · rintro ⟨id, time, t', hcall, -⟩
        exact absurd hcall (by simp)
  | recordChange id time =>
      have hconfig : (t.nodes[id]?.any Node.config) = true ↔
          ∃ m, t.nodes[id]? = some m ∧ m.config = true := by
        cases t.nodes[id]? with
        | none => simp
        | some m => simp
      constructor
      · intro h
        rw [tagged] at h
        split at h
        · next hany =>
            obtain ⟨m, hm, hmconfig⟩ := hconfig.1 hany
            refine ⟨id, time, _, rfl, recordChange_of_config supply time hm hmconfig, ?_⟩
            exact (ht.mem_lineage_iff (lt_size_of_getElem? hm)).1 h
        · exact absurd h List.not_mem_nil
      · rintro ⟨id', time', t', hcall, hchange, hover⟩
        obtain ⟨rfl, rfl⟩ := Call.recordChange.inj hcall
        obtain ⟨⟨m, hm, hmconfig⟩, -⟩ := recordChange_eq_ok_true_iff.1 hchange
        rw [tagged, if_pos (hconfig.2 ⟨m, hm, hmconfig⟩)]
        exact (ht.mem_lineage_iff (lt_size_of_getElem? hm)).2 hover

/-- A run gives a node that is there from the start a tag just if one of its calls reaches it. -/
theorem mem_taggedAll_iff {supply : EntityTag.Supply} {t : Tree} (ht : t.Rooted) {n : Nat}
    (hn : n < t.size) (calls : List Call) :
    n ∈ taggedAll supply t calls ↔
      ∃ (i : Nat) (call : Call), calls[i]? = some call ∧
        call.Reaches supply ((calls.take i).foldl (after supply) t) n := by
  induction calls generalizing t with
  | nil => simp [taggedAll]
  | cons call calls ih =>
      have hrest := ih (ht.after call) (hn.trans_le (size_le_size_after supply ht call))
      rw [taggedAll, List.mem_append, mem_tagged_iff supply ht hn, hrest]
      constructor
      · rintro (h | ⟨i, call', hi, h⟩)
        · exact ⟨0, call, rfl, h⟩
        · exact ⟨i + 1, call', hi, h⟩
      · rintro ⟨i, call', hi, h⟩
        cases i with
        | zero =>
            obtain rfl : call = call' := by simpa using hi
            exact Or.inl h
        | succ i => exact Or.inr ⟨i, call', by simpa using hi, h⟩

/-! ## Tags of one run -/

section Run

variable (supply : EntityTag.Supply) (name : String) (start : Instant) (calls : List Call)

/-- The tag was saved from a node of the tree at that moment of the run. -/
def IsSaved (s : Saved) : Prop :=
  s.moment ≤ calls.length ∧
    (grown supply name start (calls.take s.moment)).tag? s.id = some s.listed.tag

/-- One of the calls from that moment on reaches the node. -/
def ReachedSince (moment n : Nat) : Prop :=
  ∃ (i : Nat) (call : Call), moment ≤ i ∧ calls[i]? = some call ∧
    call.Reaches supply (grown supply name start (calls.take i)) n

theorem grown_take_append (moment i : Nat) :
    ((calls.drop moment).take i).foldl (after supply)
        (grown supply name start (calls.take moment)) =
      grown supply name start (calls.take (moment + i)) := by
  rw [grown, ← List.foldl_append, ← List.take_add]
  rfl

theorem reachedSince_iff {moment n : Nat}
    (hn : n < (grown supply name start (calls.take moment)).size) :
    ReachedSince supply name start calls moment n ↔
      n ∈ taggedAll supply (grown supply name start (calls.take moment)) (calls.drop moment) := by
  rw [mem_taggedAll_iff (rooted_grown supply name start _) hn]
  simp only [grown_take_append, List.getElem?_drop]
  constructor
  · rintro ⟨i, call, hle, hi, h⟩
    have hadd : moment + (i - moment) = i := by omega
    exact ⟨i - moment, call, by rw [hadd, hi], by rwa [hadd]⟩
  · rintro ⟨i, call, hi, h⟩
    exact ⟨moment + i, call, Nat.le_add_right _ _, hi, h⟩

/-- A saved tag is the current one of a node just if it was saved from it and is not outdated. -/
theorem IsSaved.tag_eq_iff {s : Saved} (hs : IsSaved supply name start calls s)
    (hfresh : supply.Fresh (grown supply name start calls).taken) {n : Nat} {tag : EntityTag}
    (hn : (grown supply name start calls).tag? n = some tag) :
    s.listed.tag = tag ↔ s.id = n ∧ ¬ ReachedSince supply name start calls s.moment n := by
  obtain ⟨-, hsaved⟩ := hs
  obtain ⟨log, hlog⟩ := exists_logged_grown supply name start (calls.take s.moment)
  -- the rest of the run leads from the tree of the moment to the tree at the end
  have hend : (calls.drop s.moment).foldl (after supply)
      (grown supply name start (calls.take s.moment)) = grown supply name start calls := by
    rw [grown, ← List.foldl_append, List.take_append_drop]
    rfl
  have hlog' := hlog.afterAll (rooted_grown supply name start _) (calls.drop s.moment)
  rw [hend] at hlog'
  rw [hlog.tag_eq_iff hlog' hfresh hsaved hn]
  refine and_congr_right ?_
  rintro rfl
  have hsize : s.id < (grown supply name start (calls.take s.moment)).size := by
    obtain ⟨m, hm, -⟩ := Option.map_eq_some_iff.1 hsaved
    exact lt_size_of_getElem? hm
  rw [reachedSince_iff supply name start calls hsize]

/-- **If no tag is taken twice, a header of saved tags lists the current tag of a node if and only
    if one of them was saved from this node and no change has reached the node since.** -/
theorem isListedIn_saved_iff (hfresh : supply.Fresh (grown supply name start calls).taken) (n : Nat)
    (node : Node) (hn : (grown supply name start calls).node n = .ok node) (saved : List Saved)
    (hsaved : ∀ s ∈ saved, IsSaved supply name start calls s) :
    node.revision.tag.isListedIn (header (saved.map Saved.listed)) = true ↔
      ∃ s ∈ saved, s.id = n ∧ ¬ ReachedSince supply name start calls s.moment n := by
  have htag := tag?_of_getElem? (node_eq_ok_iff.1 hn)
  rw [EntityTag.isListedIn_header_iff]
  constructor
  · rintro ⟨listed, hlisted, heq⟩
    obtain ⟨s, hs, rfl⟩ := List.mem_map.1 hlisted
    exact ⟨s, hs, ((hsaved s hs).tag_eq_iff supply name start calls hfresh htag).1 heq⟩
  · rintro ⟨s, hs, hcurrent⟩
    exact ⟨s.listed, List.mem_map_of_mem hs,
      ((hsaved s hs).tag_eq_iff supply name start calls hfresh htag).2 hcurrent⟩

/-- Of two tags of the node 2, saved before and after its change, only the second counts. A change
    of the node 1, which is above, outdates the tag of 1 alone. -/
theorem isListedIn_saved_iff_library :
    ∃ (supply : EntityTag.Supply) (calls : List Call) (library jukebox : Node)
      (saved : List Saved),
      (grown supply "data" (.ofSeconds 0) calls).node 2 = .ok library ∧
      (grown supply "data" (.ofSeconds 0) calls).node 1 = .ok jukebox ∧
      saved.map Saved.id = [2, 2, 1] ∧
      library.revision.tag.isListedIn (header (saved.map Saved.listed)) = true ∧
      jukebox.revision.tag.isListedIn (header (saved.map Saved.listed)) = false := by
  let supply : EntityTag.Supply := .seeded 7
  let calls : List Call := [.add 0 "jukebox" true, .add 1 "library" true,
    .recordChange 2 (.ofSeconds 300), .recordChange 1 (.ofSeconds 400)]
  let bare (tag : EntityTag) (weak : Bool) : Listed :=
    ⟨tag, weak, [], [], by simp, by simp⟩
  let saved : List Saved := [⟨2, 2, bare (supply 2) true⟩, ⟨2, 3, bare (supply 3) false⟩,
    ⟨1, 3, bare (supply 4) false⟩]
  have hfresh : supply.Fresh (grown supply "data" (.ofSeconds 0) calls).taken := by
    have htaken : (grown supply "data" (.ofSeconds 0) calls).taken = 8 := by decide +kernel
    rw [htaken]
    intro j hj i hi heq
    exact hi.ne (EntityTag.Supply.seeded_inj (by omega) (by omega) heq)
  have hsaved : ∀ s ∈ saved, IsSaved supply "data" (.ofSeconds 0) calls s := by
    intro s hs
    simp only [saved, List.mem_cons, List.not_mem_nil, or_false] at hs
    rcases hs with rfl | rfl | rfl
    · exact ⟨by decide, by decide +kernel⟩
    · exact ⟨by decide, by decide +kernel⟩
    · exact ⟨by decide, by decide +kernel⟩
  have hsize : (grown supply "data" (.ofSeconds 0) calls).size = 3 := by decide +kernel
  obtain ⟨library, hlibrary⟩ := exists_getElem? (hsize.symm ▸ (by decide : 2 < 3))
  obtain ⟨jukebox, hjukebox⟩ := exists_getElem? (hsize.symm ▸ (by decide : 1 < 3))
  rw [← node_eq_ok_iff] at hlibrary hjukebox
  refine ⟨supply, calls, library, jukebox, saved, hlibrary, hjukebox, rfl, ?_, ?_⟩
  · refine (isListedIn_saved_iff supply "data" (.ofSeconds 0) calls hfresh 2 library hlibrary saved
      hsaved).2 ⟨⟨2, 3, bare (supply 3) false⟩, by simp [saved], rfl, ?_⟩
    rw [reachedSince_iff _ _ _ _ (by decide +kernel)]
    decide +kernel
  · rw [Bool.eq_false_iff, ne_eq, isListedIn_saved_iff supply "data" (.ofSeconds 0) calls hfresh 1
      jukebox hjukebox saved hsaved]
    rintro ⟨s, hs, hid, hcurrent⟩
    simp only [saved, List.mem_cons, List.not_mem_nil, or_false] at hs
    rcases hs with rfl | rfl | rfl
    · exact absurd hid (by decide)
    · exact absurd hid (by decide)
    · rw [reachedSince_iff _ _ _ _ (by decide +kernel)] at hcurrent
      exact hcurrent (by decide +kernel)

end Run

end Tree

end Restconf.Revision
