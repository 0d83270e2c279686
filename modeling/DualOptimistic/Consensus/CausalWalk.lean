import DualOptimistic.Consensus.Node
import DualOptimistic.Consensus.SubDag

/-! The two walks from a leader.

`get_causal_blocks` looks at what a leader would commit, `linearize_sub_dag` commits it.
The first is the search through the stored, uncommitted blocks of any DAG
(`getCausalBlocks_eq`), so it always returns; and wherever the second returns, it has
walked the same way, so the sub-dag is what the first would have found, sorted
(`commitLeader_ok`). -/
namespace DualOptimistic.Consensus
open Data

namespace DagState
variable {dag : DagState}

/-! ### The read-only walk -/

/-- The stored references above genesis that the block behind `r` lists. -/
def storedLinks (dag : DagState) (r : BlockRef) : List BlockRef :=
  (links dag.getBlock r).filter dag.containsBlock

/-- Among stored references, the marks are the committed and the visited ones. -/
def Marks (dag : DagState) (visited seen : Finset BlockRef) : Prop :=
  ∀ r, dag.containsBlock r = true → (r ∈ seen ↔ r ∈ dag.committed ∨ r ∈ visited)

theorem Marks.insert {visited seen : Finset BlockRef} (h : dag.Marks visited seen) (a : BlockRef) :
    dag.Marks (insert a visited) (insert a seen) := by
  intro r hr
  rw [Finset.mem_insert, Finset.mem_insert, h r hr]
  tauto

/-- A reference that is not stored may be marked or not. -/
theorem Marks.insert_of_absent {visited seen : Finset BlockRef} (h : dag.Marks visited seen) {a : BlockRef}
    (ha : dag.getBlock a = none) : dag.Marks (Insert.insert a visited) seen := by
  intro r hr
  have hne : r ≠ a := by
    rintro rfl
    obtain ⟨b, hb⟩ := containsBlock_iff.mp hr
    rw [ha] at hb
    cases hb
  rw [Finset.mem_insert, h r hr]
  tauto

theorem containsBlock_eq_false {r : BlockRef} (h : dag.getBlock r = none) : dag.containsBlock r = false := by
  apply Bool.eq_false_of_not_eq_true
  intro hr
  obtain ⟨b, hb⟩ := containsBlock_iff.mp hr
  rw [h] at hb
  cases hb

/-- Pushing ancestors is the push of the search. -/
theorem pushAncestors_eq (refs : List BlockRef) {visited seen : Finset BlockRef}
    (h : dag.Marks visited seen) {stack : List BlockRef} :
    ∃ visited', dag.pushAncestors dag.gcRound refs visited (stack.filterMap dag.getBlock) =
        (visited', (push seen stack ((refs.filter fun a => decide (0 < a.round)).filter
          dag.containsBlock)).2.filterMap dag.getBlock) ∧
      dag.Marks visited' (push seen stack ((refs.filter fun a => decide (0 < a.round)).filter
        dag.containsBlock)).1 := by
  induction refs generalizing visited seen stack with
  | nil => exact ⟨visited, rfl, h⟩
  | cons a rest ih =>
    rw [pushAncestors]
    by_cases hpos : 0 < a.round
    · rw [List.filter_cons_of_pos (by exact decide_eq_true hpos)]
      cases hget : dag.getBlock a with
      | none =>
        rw [List.filter_cons_of_neg (by simp [containsBlock_eq_false hget])]
        split_ifs
        · exact ih (h.insert_of_absent hget)
        · exact ih h
      | some b =>
        have hstored := containsBlock_of_getBlock hget
        have hopen : (dag.gcRound < a.round ∧ dag.isCommitted a = false ∧ a ∉ visited) ↔ a ∉ seen := by
          rw [h a hstored, not_or]
          show 0 < a.round ∧ decide (a ∈ dag.committed) = false ∧ a ∉ visited ↔ _
          simp [hpos]
        rw [List.filter_cons_of_pos hstored, push]
        by_cases hseen : a ∈ seen
        · rw [if_neg (fun hcond => hopen.mp hcond hseen), if_pos hseen]
          exact ih h
        · rw [if_pos (hopen.mpr hseen), if_neg hseen]
          have hcons : b :: stack.filterMap dag.getBlock = (a :: stack).filterMap dag.getBlock := by
            rw [List.filterMap_cons_some hget]
          show ∃ visited', dag.pushAncestors dag.gcRound rest (Insert.insert a visited)
            (b :: stack.filterMap dag.getBlock) = _ ∧ _
          rw [hcons]
          exact ih (h.insert a)
    · have hskip : ¬ (dag.gcRound < a.round ∧ dag.isCommitted a = false ∧ a ∉ visited) :=
        fun hcond => hpos hcond.1
      rw [List.filter_cons_of_neg (by simpa using hpos), if_neg hskip]
      exact ih h

theorem causalLoop_eq {n : Nat} {visited seen : Finset BlockRef} (h : dag.Marks visited seen)
    {stack : List BlockRef} (hstack : ∀ r ∈ stack, dag.containsBlock r = true) :
    dag.causalLoop dag.gcRound n visited (stack.filterMap dag.getBlock) =
      (search dag.storedLinks n seen stack).map fun found => found.1.filterMap dag.getBlock := by
  induction n generalizing visited seen stack with
  | zero =>
    cases stack with
    | nil => rfl
    | cons r rest =>
      obtain ⟨b, hb⟩ := containsBlock_iff.mp (hstack r (List.mem_cons_self ..))
      rw [List.filterMap_cons_some hb]
      rfl
  | succ n ih =>
    cases stack with
    | nil => rfl
    | cons r rest =>
      obtain ⟨b, hb⟩ := containsBlock_iff.mp (hstack r (List.mem_cons_self ..))
      have hlinks : dag.storedLinks r =
          (b.ancestors.filter fun a => decide (0 < a.round)).filter dag.containsBlock := by
        rw [storedLinks, links, hb]
      obtain ⟨visited', hpush, hmarks⟩ := @pushAncestors_eq dag b.ancestors _ _ h rest
      rw [← hlinks] at hpush hmarks
      have hnext : ∀ x ∈ (push seen rest (dag.storedLinks r)).2, dag.containsBlock x = true := by
        intro x hx
        rcases mem_push_stack.mp hx with hx | ⟨hx, -⟩
        · exact hstack x (List.mem_cons_of_mem _ hx)
        · exact (List.mem_filter.mp hx).2
      rw [List.filterMap_cons_some hb, causalLoop, search, hpush]
      show (dag.causalLoop dag.gcRound n visited' _).map _ = _
      rw [ih hmarks hnext, Option.map_map, Option.map_map]
      congr 1
      funext found
      exact (List.filterMap_cons_some hb).symm

/-- **`get_causal_blocks`** of a stored, uncommitted leader is the search through stored,
uncommitted blocks. -/
theorem getCausalBlocks_eq {leader : BlockRef} (hstored : dag.containsBlock leader = true)
    (hfresh : leader ∉ dag.committed) :
    ∃ visited seen, search dag.storedLinks dag.walkFuel (insert leader dag.committed) [leader] =
        some (visited, seen) ∧
      dag.getCausalBlocks leader dag.gcRound = .ok (visited.filterMap dag.getBlock) := by
  obtain ⟨b, hb⟩ := containsBlock_iff.mp hstored
  obtain ⟨⟨visited, seen⟩, hrun⟩ := dag.search_of_stored
    (fun r a (ha : a ∈ dag.storedLinks r) => (List.mem_filter.mp ha).2) hstored dag.committed
  have hmarks : dag.Marks {leader} (insert leader dag.committed) := by
    intro r _
    rw [Finset.mem_insert, Finset.mem_singleton, or_comm]
  have hloop := @causalLoop_eq dag dag.walkFuel _ _ hmarks [leader]
    fun r hr => List.mem_singleton.mp hr ▸ hstored
  refine ⟨visited, seen, hrun, ?_⟩
  rw [hrun, List.filterMap_cons_some hb, Option.map_some] at hloop
  have hopen : ¬ dag.isCommitted leader = true := fun hmem => hfresh (of_decide_eq_true hmem)
  rw [getCausalBlocks, hb]
  dsimp only
  rw [if_neg hopen]
  rw [show dag.causalLoop dag.gcRound dag.walkFuel {leader} [b] = _ from hloop]

/-- **The read-only walk always returns.** -/
theorem getCausalBlocks_ok (dag : DagState) (leader : BlockRef) :
    ∃ blocks, dag.getCausalBlocks leader dag.gcRound = .ok blocks := by
  cases hget : dag.getBlock leader with
  | none => exact ⟨[], by rw [getCausalBlocks, hget]⟩
  | some b =>
    by_cases hcommitted : leader ∈ dag.committed
    · refine ⟨[], ?_⟩
      rw [getCausalBlocks, hget]
      exact if_pos (decide_eq_true hcommitted)
    · obtain ⟨visited, seen, -, heq⟩ := getCausalBlocks_eq (containsBlock_of_getBlock hget) hcommitted
      exact ⟨_, heq⟩

/-! ### The committing walk -/

theorem fetchBlocks_committed (C : Finset BlockRef) (refs : List BlockRef) :
    fetchBlocks { dag with committed := C } refs = dag.fetchBlocks refs := by
  induction refs with
  | nil => rfl
  | cons r rest ih =>
    rw [fetchBlocks, fetchBlocks, ih]
    rfl

/-- Where marking and pushing the open ancestors succeeds, the read-only walk pushes the
same blocks. -/
theorem pushAncestors_of_pushCommitted {refs : List BlockRef} {C visited : Finset BlockRef}
    (hC : C ⊆ dag.committed ∪ visited) {ancestors buffer buffer' : List VerifiedBlock} {dag' : DagState}
    (hfetch : dag.fetchBlocks (refs.filter fun a => decide (0 < a.round) && !decide (a ∈ C)) = .ok ancestors)
    (hpush : pushCommitted { dag with committed := dag.committed ∪ visited } ancestors buffer =
      .ok (dag', buffer')) :
    ∃ visited', visited ⊆ visited' ∧ dag.pushAncestors dag.gcRound refs visited buffer = (visited', buffer') ∧
      dag' = { dag with committed := dag.committed ∪ visited' } := by
  induction refs generalizing visited ancestors buffer with
  | nil =>
    obtain rfl : [] = ancestors := Except.ok.inj hfetch
    obtain ⟨rfl, rfl⟩ := Prod.mk.inj (Except.ok.inj hpush)
    exact ⟨visited, Finset.Subset.refl _, rfl, rfl⟩
  | cons a rest ih =>
    rw [pushAncestors]
    by_cases hopen : 0 < a.round ∧ a ∉ C
    · rw [List.filter_cons_of_pos (by simpa using hopen), fetchBlocks] at hfetch
      cases hget : dag.getBlock a with
      | none =>
        rw [hget] at hfetch
        cases hfetch
      | some b =>
        rw [hget] at hfetch
        obtain ⟨more, hmore, hfetch⟩ := except_bind_ok_iff.mp hfetch
        obtain rfl : b :: more = ancestors := Except.ok.inj hfetch
        have href : b.reference = a := getBlock_reference hget
        -- the assertion held, so `a` was new
        rw [pushCommitted] at hpush
        split_ifs at hpush with hnew
        have hnot : a ∉ dag.committed ∪ visited := by
          have : (!decide (b.reference ∈ dag.committed ∪ visited)) = true := hnew
          rw [href] at this
          simpa using this
        have hcommitted : dag.isCommitted a = false :=
          decide_eq_false fun hmem => hnot (Finset.mem_union_left _ hmem)
        have hvisited : a ∉ visited := fun hmem => hnot (Finset.mem_union_right _ hmem)
        have hmark : (setCommitted { dag with committed := dag.committed ∪ visited } b.reference).2 =
            { dag with committed := dag.committed ∪ insert a visited } := by
          show { dag with committed := insert b.reference (dag.committed ∪ visited) } = _
          rw [href, Finset.union_insert]
        rw [hmark] at hpush
        have hcond : dag.gcRound < a.round ∧ dag.isCommitted a = false ∧ a ∉ visited :=
          ⟨hopen.1, hcommitted, hvisited⟩
        rw [if_pos hcond]
        obtain ⟨visited', hsub, heq, hdag⟩ :=
          ih (hC.trans (Finset.union_subset_union_right (Finset.subset_insert ..))) hmore hpush
        exact ⟨visited', (Finset.subset_insert ..).trans hsub, heq, hdag⟩
    · rw [List.filter_cons_of_neg (by simpa using hopen)] at hfetch
      have hskip : ¬ (dag.gcRound < a.round ∧ dag.isCommitted a = false ∧ a ∉ visited) := by
        intro hcond
        have hmem : a ∈ C := by
          by_contra hnot
          exact hopen ⟨hcond.1, hnot⟩
        rcases Finset.mem_union.mp (hC hmem) with hcommitted | hvisited
        · exact absurd hcommitted (of_decide_eq_false hcond.2.1)
        · exact hcond.2.2 hvisited
      rw [if_neg hskip]
      exact ih hC hfetch hpush

/-- Where the committing walk returns, the read-only walk pops the same blocks. -/
theorem causalLoop_of_linearizeLoop {n : Nat} {visited : Finset BlockRef} {stack l : List VerifiedBlock}
    {dag' : DagState}
    (hrun : linearizeLoop n { dag with committed := dag.committed ∪ visited } stack = .ok (l, dag')) :
    dag.causalLoop dag.gcRound n visited stack = some l ∧
      ∃ C, dag.committed ⊆ C ∧ dag' = { dag with committed := C } := by
  induction n generalizing visited stack l with
  | zero =>
    cases stack with
    | nil =>
      obtain ⟨rfl, rfl⟩ := Prod.mk.inj (Except.ok.inj hrun)
      exact ⟨rfl, _, Finset.subset_union_left, rfl⟩
    | cons b rest => cases hrun
  | succ n ih =>
    cases stack with
    | nil =>
      obtain ⟨rfl, rfl⟩ := Prod.mk.inj (Except.ok.inj hrun)
      exact ⟨rfl, _, Finset.subset_union_left, rfl⟩
    | cons b rest =>
      rw [linearizeLoop] at hrun
      obtain ⟨ancestors, hfetch, hrun⟩ := except_bind_ok_iff.mp hrun
      rw [fetchBlocks_committed] at hfetch
      obtain ⟨⟨dag₁, buffer⟩, hpush, hrun⟩ := except_bind_ok_iff.mp hrun
      obtain ⟨⟨l', dag₂⟩, hloop, hrun⟩ := except_bind_ok_iff.mp hrun
      obtain ⟨rfl, rfl⟩ := Prod.mk.inj (Except.ok.inj hrun)
      obtain ⟨visited', -, heq, rfl⟩ :=
        pushAncestors_of_pushCommitted (Finset.Subset.refl _) hfetch hpush
      obtain ⟨hwalk, hframe⟩ := ih hloop
      refine ⟨?_, hframe⟩
      rw [causalLoop, heq]
      show (dag.causalLoop dag.gcRound n visited' buffer).map _ = _
      rw [hwalk]
      rfl

theorem setCommitted_eq_union (dag : DagState) (r : BlockRef) :
    (dag.setCommitted r).2 = { dag with committed := dag.committed ∪ {r} } := by
  show { dag with committed := insert r dag.committed } = _
  rw [Finset.insert_eq, Finset.union_comm]

/-- The committing walk of a stored leader that returns leaves the rest of the DAG alone. -/
theorem linearizeSubDag_ok {leader : VerifiedBlock} (hget : dag.getBlock leader.reference = some leader)
    {blocks : List VerifiedBlock} {dag' : DagState} (hrun : dag.linearizeSubDag leader = .ok (blocks, dag')) :
    leader.reference ∉ dag.committed ∧ blocks = sortSubDagBlocks (dag.causalBlocks leader.reference) ∧
      ∃ C, dag.committed ⊆ C ∧ dag' = { dag with committed := C } := by
  rw [linearizeSubDag] at hrun
  split_ifs at hrun with hnew
  have hfresh : leader.reference ∉ dag.committed := by
    have : (!decide (leader.reference ∈ dag.committed)) = true := hnew
    simpa using this
  obtain ⟨⟨toCommit, dag₁⟩, hloop, hrun⟩ := except_bind_ok_iff.mp hrun
  rw [setCommitted_eq_union] at hloop
  obtain ⟨hwalk, C, hsub, rfl⟩ := causalLoop_of_linearizeLoop hloop
  have hblocks : dag.causalBlocks leader.reference = toCommit := by
    have hopen : ¬ dag.isCommitted leader.reference = true := fun hmem => hfresh (of_decide_eq_true hmem)
    rw [causalBlocks, getCausalBlocks, hget]
    dsimp only
    rw [if_neg hopen, hwalk]
  dsimp only at hrun
  split_ifs at hrun
  obtain ⟨rfl, rfl⟩ := Prod.mk.inj (Except.ok.inj hrun)
  exact ⟨hfresh, by rw [hblocks], C, hsub, rfl⟩

/-- **`commit_leader`**, where it returns: the next index, and what the read-only walk
finds, sorted. -/
theorem commitLeader_ok {sha3 : List UInt8 → BlockDigest} {leader : VerifiedBlock}
    (hget : dag.getBlock leader.reference = some leader) {subDag : CommittedSubDag} {dag' : DagState}
    (hrun : dag.commitLeader sha3 leader = .ok (subDag, dag')) :
    (leader.reference ∉ dag.committed ∧ subDag.leader = leader.reference ∧
      subDag.blocks = sortSubDagBlocks (dag.causalBlocks leader.reference) ∧
      subDag.commitRef.index = dag.lastCommitIndex + 1) ∧
    ∃ C, dag.committed ⊆ C ∧ dag' = ({ dag with committed := C } : DagState).recordCommit subDag := by
  obtain ⟨⟨blocks, dag₁⟩, hwalk, hrun⟩ := except_bind_ok_iff.mp hrun
  obtain ⟨hfresh, rfl, C, hsub, rfl⟩ := linearizeSubDag_ok hget hwalk
  obtain ⟨rfl, rfl⟩ := Prod.mk.inj (Except.ok.inj hrun)
  exact ⟨⟨hfresh, rfl, rfl, rfl⟩, C, hsub, rfl⟩

end DagState

end DualOptimistic.Consensus
