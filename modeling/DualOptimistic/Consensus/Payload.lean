import DualOptimistic.Consensus.CausalClosure
import DualOptimistic.Consensus.Ledger
import DualOptimistic.Consensus.NodeRun

/-! The payload of an early commit against that of the sub-dag.

An early commit carries what its leader would commit at that moment. Until the leader is
committed, other leaders may be, and they take parts of its history with them. Fed in
causal order, a node sends for a leader the same transactions both times exactly if no
block among those it sent early, and with transactions in it, is committed in between
(`run_payload_iff`). -/
namespace DualOptimistic.Consensus
open Data

/-! ### What a leader would commit -/

namespace Universe
variable {c : Committee} {U : Universe c} {dag : DagState}

/-- The block behind `r` is in the history of that behind `root`, or it is that. -/
def Past (U : Universe c) (root r : BlockRef) : Prop :=
  Relation.ReflTransGen (fun a b => b ∈ links U.block a) root r

/-- With a block, its history above genesis is committed. -/
def CommitClosed (U : Universe c) (C : Finset BlockRef) : Prop := ∀ r ∈ C, ∀ a ∈ links U.block r, a ∈ C

theorem CommitClosed.past_iff {C : Finset BlockRef} (h : U.CommitClosed C) {root r : BlockRef}
    (hroot : root ∉ C) :
    Relation.ReflTransGen (fun a b => b ∈ links U.block a ∧ b ∉ C) root r ↔ U.Past root r ∧ r ∉ C := by
  constructor
  · intro hpath
    induction hpath with
    | refl => exact ⟨.refl, hroot⟩
    | tail _ hstep ih => exact ⟨ih.1.tail hstep.1, hstep.2⟩
  · intro hpast
    obtain ⟨hpath, hr⟩ := hpast
    induction hpath with
    | refl => exact .refl
    | tail _ hstep ih => exact (ih fun hmem => hr (h _ hmem _ hstep)).tail ⟨hstep, hr⟩

/-- What a walk visits from a closed set, it leaves closed. -/
theorem CommitClosed.search {C seen : Finset BlockRef} (h : U.CommitClosed C) {root : BlockRef}
    (hroot : root ∉ C) {n : Nat} {visited : List BlockRef}
    (hrun : search (links U.block) n (insert root C) [root] = some (visited, seen)) : U.CommitClosed seen := by
  obtain ⟨-, hreach, -, hseen⟩ := search_spec hroot hrun
  intro r hr a ha
  rw [hseen, Finset.mem_union, List.mem_toFinset] at hr ⊢
  rcases hr with hr | hr
  · exact .inl (h r hr a ha)
  · by_cases haC : a ∈ C
    · exact .inl haC
    · exact .inr ((hreach a).mpr (((hreach r).mp hr).tail ⟨ha, haC⟩))

/-- **What a stored leader would commit** is its uncommitted history, each block once. -/
theorem Drawn.mem_causalBlocks (h : U.Drawn dag) (hclosed : U.CommitClosed dag.committed) {leader : BlockRef}
    (hstored : dag.containsBlock leader = true) (hpos : 0 < leader.round) (hfresh : leader ∉ dag.committed) :
    (dag.causalBlocks leader).Nodup ∧ ∀ b, b ∈ dag.causalBlocks leader ↔
      U.Has b ∧ U.Past leader b.reference ∧ b.reference ∉ dag.committed := by
  obtain ⟨visited, seen, hrun, heq⟩ := DagState.getCausalBlocks_eq hstored hfresh
  have hlinks : dag.storedLinks = links dag.getBlock := by
    funext r
    exact List.filter_eq_self.mpr fun a ha => h.sound.closed.links_stored ha
  rw [hlinks] at hrun
  have hvisited : ∀ r ∈ visited, dag.getBlock r = U.block r := fun r hr =>
    h.getBlock_eq (h.sound.closed.visited_stored hstored hpos hfresh hrun hr).2
      (h.sound.closed.visited_stored hstored hpos hfresh hrun hr).1
  have hblocks : dag.causalBlocks leader = visited.filterMap U.block := by
    rw [DagState.causalBlocks, heq]
    exact List.filterMap_congr hvisited
  rw [h.search_links_eq hstored hpos] at hrun
  obtain ⟨hnodup, hreach, -, -⟩ := search_spec hfresh hrun
  rw [hblocks]
  refine ⟨List.Nodup.filterMap (fun r r' b hb hb' => ?_) hnodup, fun b => ?_⟩
  · rw [← U.keyed hb, ← U.keyed hb']
  · rw [List.mem_filterMap]
    constructor
    · intro hb
      obtain ⟨r, hr, hb⟩ := hb
      have hpast := (hclosed.past_iff hfresh).mp ((hreach r).mp hr)
      rw [← U.keyed hb] at hpast
      exact ⟨has_of_block hb, hpast⟩
    · intro hb
      exact ⟨b.reference, (hreach _).mpr ((hclosed.past_iff hfresh).mpr hb.2), hb.1⟩

end Universe

/-- The transactions a leader would commit before and after other commits are the same
exactly if none with transactions was committed meanwhile. -/
theorem payload_iff {c : Committee} {U : Universe c} {dag dag' : DagState} (h : U.Drawn dag) (h' : U.Drawn dag')
    (hclosed : U.CommitClosed dag.committed) (hclosed' : U.CommitClosed dag'.committed)
    (hgrows : dag.committed ⊆ dag'.committed) {leader : BlockRef} (hpos : 0 < leader.round)
    (hstored : dag.containsBlock leader = true) (hstored' : dag'.containsBlock leader = true)
    (hfresh' : leader ∉ dag'.committed) :
    (dag.causalTxs leader).Perm (dag'.causalTxs leader) ↔
      ∀ b ∈ dag.causalBlocks leader, b.transactions ≠ [] → b.reference ∉ dag'.committed := by
  have hfresh : leader ∉ dag.committed := fun hmem => hfresh' (hgrows hmem)
  obtain ⟨hnodup, hmem⟩ := h.mem_causalBlocks hclosed hstored hpos hfresh
  obtain ⟨hnodup', hmem'⟩ := h'.mem_causalBlocks hclosed' hstored' hpos hfresh'
  let kept : VerifiedBlock → Bool := fun b => decide (b.reference ∉ dag'.committed)
  let lost := (dag.causalBlocks leader).filter fun b => !kept b
  have hkept : (dag'.causalBlocks leader).Perm ((dag.causalBlocks leader).filter kept) := by
    refine (List.perm_ext_iff_of_nodup hnodup' (hnodup.filter _)).mpr fun b => ?_
    rw [List.mem_filter, hmem, hmem', decide_eq_true_iff]
    constructor
    · exact fun hb => ⟨⟨hb.1, hb.2.1, fun hold => hb.2.2 (hgrows hold)⟩, hb.2.2⟩
    · exact fun hb => ⟨hb.1.1, hb.1.2.1, hb.2⟩
  -- early it sends what is left later, and what was lost
  have hsplit : (dag.causalTxs leader).Perm
      (dag'.causalTxs leader ++ lost.flatMap VerifiedBlock.signedTxs) := by
    have hboth := ((List.filter_append_perm kept (dag.causalBlocks leader)).symm.trans
      (hkept.symm.append_right lost)).flatMap_right VerifiedBlock.signedTxs
    rwa [List.flatMap_append] at hboth
  have hlost : lost.flatMap VerifiedBlock.signedTxs = [] ↔
      ∀ b ∈ dag.causalBlocks leader, b.transactions ≠ [] → b.reference ∉ dag'.committed := by
    rw [List.flatMap_eq_nil_iff]
    refine ⟨fun hnil b hb htxs hcommitted => ?_, fun hkeep b hb => ?_⟩
    · have hb' : b ∈ lost := List.mem_filter.mpr ⟨hb, by simpa [kept] using hcommitted⟩
      exact htxs (List.map_eq_nil_iff.mp (hnil b hb'))
    · obtain ⟨hb, hgone⟩ := List.mem_filter.mp hb
      by_contra hne
      have htxs : b.transactions ≠ [] := fun hnil => hne (by rw [VerifiedBlock.signedTxs, hnil]; rfl)
      have hcommitted : b.reference ∈ dag'.committed := by simpa [kept] using hgone
      exact hkeep b hb htxs hcommitted
  rw [← hlost]
  constructor
  · intro hperm
    have hlen := (hsplit.symm.trans hperm).length_eq
    rw [List.length_append] at hlen
    exact List.length_eq_zero_iff.mp (by omega)
  · intro hnil
    rwa [hnil, List.append_nil] at hsplit

/-! ### What a node sends in causal delivery -/

/-- The DAG of an emission is drawn from the universe, and its leader is stored there. -/
structure Emission.Drawn {c : Committee} (U : Universe c) (e : Emission) : Prop where
  drawn : U.Drawn e.dag
  closed : U.CommitClosed e.dag.committed
  leader : e.dag.containsBlock e.event.leader = true
  leader_pos : 0 < e.event.leader.round

/-- A node fed in causal order: nothing waits, and commits are closed. -/
structure CausalNode {c : Committee} (U : Universe c) (node : ConsensusNode) : Prop where
  idle : node.manager.Idle
  drawn : U.Drawn node.manager.dagState
  closed : U.CommitClosed node.manager.dagState.committed

section Drawn
variable {sha3 : List UInt8 → BlockDigest} {c : Committee} {U : Universe c}

theorem causalNode_new (sha3 : List UInt8 → BlockDigest) (U : Universe c) : CausalNode U (.new sha3 c) where
  idle _ := rfl
  drawn := Universe.drawn_new sha3 U
  closed := by
    intro r hr a ha
    -- only genesis is committed, and it lists nothing
    have hlt := Universe.links_round ha
    rw [DagState.new_committed hr] at hlt
    exact absurd hlt (Nat.not_lt_zero _)

/-- **The decided leaders in order**: each is committed from a DAG of the universe. -/
theorem Carried.drawn {k : Nat} {s : HardState} {verdicts : List (Option VerifiedBlock)}
    {out : List Emission × Except Panic HardState} (h : Carried sha3 c k s verdicts out)
    (hlinks : U.LinksDistinct) (hdrawn : U.Drawn s.dag) (hclosed : U.CommitClosed s.dag.committed) :
    (∀ e ∈ out.1, e.Drawn U) ∧
      ∀ s', out.2 = .ok s' → U.Drawn s'.dag ∧ U.CommitClosed s'.dag.committed ∧
        ∀ r, s.dag.containsBlock r = s'.dag.containsBlock r := by
  induction h with
  | nil =>
    refine ⟨fun e he => absurd he List.not_mem_nil, fun s' hs' => ?_⟩
    obtain rfl := Except.ok.inj hs'
    exact ⟨hdrawn, hclosed, fun r => rfl⟩
  | skip _ ih => exact ih hdrawn hclosed
  | panic => exact ⟨fun e he => absurd he List.not_mem_nil, fun s' hs' => (by cases hs')⟩
  | @commit k s rest b subDag dag out hget hslot hcommit _ ih =>
    obtain ⟨⟨hfresh, hleader, -⟩, -⟩ := DagState.commitLeader_ok hget hcommit
    have hpos : 0 < b.round := by
      rw [show b.round = 3 * (k + 1) from congrArg Slot.round hslot]
      exact Nat.succ_pos _
    obtain ⟨n, visited, seen, digest, hrun, hok⟩ := @Universe.Drawn.commitLeader_eq sha3 c U s.dag hdrawn hlinks b
      (Universe.stores_of_getBlock hpos hget) hpos hfresh
    obtain ⟨-, rfl⟩ := Prod.mk.inj (Except.ok.inj (hcommit.symm.trans hok))
    obtain ⟨hsent, hafter⟩ := ih (hdrawn.recordTally _ _) (hclosed.search hfresh hrun)
    refine ⟨fun e he => ?_, hafter⟩
    rcases List.mem_cons.mp he with rfl | he
    · have hshared : (ConsensusEvent.hardCommit (toSharedSubdag subDag)).leader = b.reference := hleader
      refine ⟨hdrawn, hclosed, ?_, ?_⟩
      · rw [hshared]
        exact DagState.containsBlock_of_getBlock hget
      · rw [hshared]
        exact hpos
    · exact hsent e he

/-- The leaders a pass sends are listed by the blocks it looks at. -/
theorem listed_of_fired {dag : DagState} {cast : List (BlockRef × AuthorityIndex)} {t : SoftCommitTracker}
    (h : t.Tallies dag.committee cast) {blocks : List VerifiedBlock} {e : ConsensusEvent}
    (he : e ∈ (dag.checkSoftCommits blocks t).1) :
    0 < e.leader.round ∧ ∃ b ∈ blocks, e.leader ∈ b.ancestors := by
  obtain ⟨⟨leaders, hevents, -, -, hmem⟩, htallies⟩ := dag.checkSoftCommits_spec blocks h
  rw [hevents] at he
  obtain ⟨leader, hleader, rfl⟩ := List.mem_map.mp he
  obtain ⟨hafter, hbefore⟩ := (hmem leader).mp hleader
  have hquorum := (htallies.fired leader).mp hafter
  -- some vote for it is new, or it would have fired before
  obtain ⟨i, hi, hnew⟩ : ∃ i, (leader, i) ∈ cast ++ castVotes dag.committee blocks ∧ (leader, i) ∉ cast := by
    by_contra hnone
    refine hbefore ((h.fired leader).mpr (hquorum.mono fun i hi => ?_))
    rw [SoftCommitTracker.mem_votersOf] at hi ⊢
    by_contra hi'
    exact hnone ⟨i, hi, hi'⟩
  obtain ⟨w, hw, hslot, b, hb, -, -, hlisted⟩ := mem_castVotes.mp ((List.mem_append.mp hi).resolve_left hnew)
  refine ⟨?_, b, hb, hlisted⟩
  rw [show (dag.softEvent leader).leader.round = 3 * w from congrArg Slot.round hslot]
  exact Nat.mul_pos (by decide) hw

/-- **The accepting half of a call** in causal delivery: the whole batch is stored. -/
theorem CausalNode.tryAcceptBlocks {node : ConsensusNode} (hregistered : node.manager.Registered)
    (h : CausalNode U node) {batch : List VerifiedBlock} (hbatch : ∀ b ∈ batch, U.Has b)
    (hcausal : node.manager.dagState.CausalOrder (BlockManager.sortByRound batch)) :
    let o := node.manager.tryAcceptBlocks batch
    (o.manager.Idle ∧ U.Drawn o.manager.dagState ∧ U.CommitClosed o.manager.dagState.committed) ∧
      (∀ b ∈ o.accepted, o.manager.dagState.Stores b) ∧
      ∀ r, (node.manager.dagState.acceptBlocks (BlockManager.sortByRound batch)).containsBlock r =
        o.manager.dagState.containsBlock r := by
  intro o
  obtain ⟨horder, hidle, hcontains⟩ := h.idle.acceptEach hregistered hcausal
  have hdag : o.manager.dagState = node.manager.dagState.acceptBlocks o.accepted :=
    node.manager.tryAcceptBlocks_dagState batch
  have hwaiting : node.manager.SuspendedAll U.Has := by
    intro k s hs
    rw [h.idle k] at hs
    cases hs
  have hhas := (hwaiting.tryAcceptBlocks hregistered hbatch).1
  obtain ⟨hdrawn, hstores⟩ := h.drawn.acceptBlocks hhas horder
  have hclosed : U.CommitClosed o.manager.dagState.committed := by
    rw [hdag, DagState.acceptBlocks_committed]
    exact h.closed
  refine ⟨⟨hidle, ?_, hclosed⟩, fun b hb => ?_, hcontains⟩
  · rw [hdag]
    exact hdrawn
  · rw [hdag]
    exact (hstores b).mpr (.inl hb)

/-- **One call** in causal delivery. -/
theorem CausalNode.acceptBlocks (hlinks : U.LinksDistinct) {accepted : List VerifiedBlock}
    {verdicts : List (Option VerifiedBlock)} {sent : List Emission} {node : ConsensusNode}
    (hlog : Logged c accepted verdicts sent node) (h : CausalNode U node) {batch : List VerifiedBlock}
    (hbatch : ∀ b ∈ batch, U.Has b) (hcausal : node.manager.dagState.CausalOrder (BlockManager.sortByRound batch)) :
    (∀ e ∈ (node.acceptBlocks sha3 batch).sent, e.Drawn U) ∧
      ∀ next, (node.acceptBlocks sha3 batch).node = .ok next → CausalNode U next ∧
        ∀ r, (node.manager.dagState.acceptBlocks (BlockManager.sortByRound batch)).containsBlock r =
          next.manager.dagState.containsBlock r := by
  obtain ⟨⟨hidle, hdrawn, hclosed⟩, hstores, hcontains⟩ := h.tryAcceptBlocks hlog.registered hbatch hcausal
  -- an early leader is listed by a block of this call, so it is stored
  have hsoft : ∀ e ∈ ((node.manager.tryAcceptBlocks batch).manager.dagState.checkSoftCommits
      (node.manager.tryAcceptBlocks batch).accepted node.softCommit).1.map
        (Emission.mk (node.manager.tryAcceptBlocks batch).manager.dagState), e.Drawn U := by
    intro e he
    obtain ⟨event, hevent, rfl⟩ := List.mem_map.mp he
    have htallies := hlog.tallies
    rw [← show (node.manager.tryAcceptBlocks batch).manager.dagState.committee = c from hdrawn.committee]
      at htallies
    obtain ⟨hpos, b, hb, hlisted⟩ := listed_of_fired htallies hevent
    have hstored := DagState.getBlock_of_blocks (hstores b hb)
    exact ⟨hdrawn, hclosed, hdrawn.sound.closed _ b hstored _ hlisted hpos, hpos⟩
  unfold ConsensusNode.acceptBlocks ConsensusNode.tryHardCommit
  dsimp only
  cases hdecide : (node.manager.tryAcceptBlocks batch).manager.dagState.tryDecide
      (UniversalCommitterBuilder.build {}) node.lastDecided with
  | error p =>
    dsimp only
    rw [List.append_nil]
    exact ⟨hsoft, fun next hnext => (by cases hnext)⟩
  | ok decided =>
    obtain ⟨vs, hlabel, -, hleaders⟩ := (hlog.accepted batch).decided hdecide
    obtain ⟨hsent, hafter⟩ := (@carried_commitEach sha3 c
      ⟨(node.manager.tryAcceptBlocks batch).manager.dagState, node.lastDecided⟩ _ _ _ hlabel hleaders).drawn
      hlinks hdrawn hclosed
    refine ⟨fun e he => ?_, fun next hnext => ?_⟩
    · rcases List.mem_append.mp he with he | he
      · exact hsoft e he
      · exact hsent e he
    · dsimp only at hnext
      cases hres : (HardState.commitEach sha3
          ⟨(node.manager.tryAcceptBlocks batch).manager.dagState, node.lastDecided⟩ decided).2 with
      | error p =>
        rw [hres] at hnext
        cases hnext
      | ok s' =>
        rw [hres] at hnext
        obtain rfl := Except.ok.inj hnext
        obtain ⟨hdrawn', hclosed', hsame⟩ := hafter s' hres
        exact ⟨⟨hidle, hdrawn', hclosed'⟩, fun r => (hcontains r).trans (hsame r)⟩

/-- **A whole run** in causal delivery. -/
theorem CausalNode.run (hlinks : U.LinksDistinct) {accepted : List VerifiedBlock}
    {verdicts : List (Option VerifiedBlock)} {sent : List Emission} {node : ConsensusNode}
    (hkept : NodeLog c accepted verdicts sent) (hlog : Logged c accepted verdicts sent node)
    (h : CausalNode U node) {batches : List (List VerifiedBlock)} (hbatches : ∀ b ∈ batches.flatten, U.Has b)
    (hcausal : node.manager.dagState.CausalOrder (BlockManager.processed batches)) :
    ∀ e ∈ (node.run sha3 batches).sent, e.Drawn U := by
  induction batches generalizing accepted verdicts sent node with
  | nil => exact fun e he => absurd he List.not_mem_nil
  | cons batch rest ih =>
    rw [List.flatten_cons] at hbatches
    obtain ⟨hfirst, hlater⟩ := hcausal.split
    obtain ⟨hsent, hafter⟩ := @CausalNode.acceptBlocks sha3 c U hlinks _ _ _ _ hlog h batch
      (fun b hb => hbatches b (List.mem_append_left _ hb)) hfirst
    obtain ⟨vs, -, hkept', hlog'⟩ := hlog.acceptBlocks sha3 hkept batch
    unfold ConsensusNode.run
    dsimp only
    cases hnext : (node.acceptBlocks sha3 batch).node with
    | error p => exact hsent
    | ok next =>
      obtain ⟨hnode, hsame⟩ := hafter next hnext
      intro e he
      rcases List.mem_append.mp he with he | he
      · exact hsent e he
      · exact ih hkept' (hlog' next hnext) hnode (fun b hb => hbatches b (List.mem_append_right _ hb))
          (hlater.congr hsame) e he

end Drawn

/-! ### The payloads -/

theorem Emission.Reads.soft {e : Emission} (h : e.Reads) {round : Round} {leader : BlockRef}
    {txs : List EthSignedTx} (hevent : e.event = .softCommit round leader txs) :
    round = leader.round ∧ txs = e.dag.causalTxs leader := by
  rwa [Emission.Reads, hevent] at h

theorem Emission.Reads.hard {e : Emission} (h : e.Reads) {subdag : OurCommittedSubDag}
    (hevent : e.event = .hardCommit subdag) :
    e.dag.containsBlock subdag.leader = true ∧ subdag.leader ∉ e.dag.committed ∧
      subdag.txs = (sortSubDagBlocks (e.dag.causalBlocks subdag.leader)).flatMap VerifiedBlock.signedTxs := by
  rw [Emission.Reads, hevent] at h
  refine ⟨h.1, h.2.1, ?_⟩
  rw [OurCommittedSubDag.txs, h.2.2, List.flatMap_map]
  rfl

/-- A leader that was sent early once was sent in one place. -/
theorem eq_of_softLeaders_nodup {sent : List Emission} (h : (softLeaders sent).Nodup) {e e' : Emission}
    (he : e ∈ sent) (he' : e' ∈ sent) {leader : BlockRef} {round round' : Round} {txs txs' : List EthSignedTx}
    (hevent : e.event = .softCommit round leader txs) (hevent' : e'.event = .softCommit round' leader txs') :
    e = e' := by
  induction sent with
  | nil => exact absurd he List.not_mem_nil
  | cons x rest ih =>
    have hcons : softLeaders (x :: rest) = softLeaders [x] ++ softLeaders rest := softLeaders_append [x] rest
    rw [hcons] at h
    obtain ⟨-, hrest, hdisjoint⟩ := List.nodup_append.mp h
    have hleft : ∀ {y r t}, y = x → y.event = .softCommit r leader t → leader ∈ softLeaders rest → False := by
      intro y r t hy hsoft hmem
      exact hdisjoint leader (mem_softLeaders.mpr ⟨x, List.mem_singleton_self x, r, t, hy ▸ hsoft⟩) leader hmem rfl
    rcases List.mem_cons.mp he with hx | he
    · rcases List.mem_cons.mp he' with hx' | he'
      · rw [hx, hx']
      · exact (hleft hx hevent (mem_softLeaders.mpr ⟨e', he', round', txs', hevent'⟩)).elim
    · rcases List.mem_cons.mp he' with hx' | he'
      · exact (hleft hx' hevent' (mem_softLeaders.mpr ⟨e, he, round, txs, hevent⟩)).elim
      · exact ih hrest he he'

/-- **Early payload and committed payload.** In a run fed from a universe in causal order, a
committed leader that was sent early was sent before it was committed, and both times with
the same transactions exactly if no block with transactions among those it sent early was
committed before it. -/
theorem run_payload_iff (sha3 : List UInt8 → BlockDigest) {c : Committee} (U : Universe c)
    (hdistinct : U.Distinct) {batches : List (List VerifiedBlock)} (hfed : ∀ b ∈ batches.flatten, U.Has b)
    (hcausal : (DagState.new sha3 c).CausalOrder (BlockManager.processed batches)) :
    let o := (ConsensusNode.new sha3 c).run sha3 batches
    ∀ soft ∈ o.sent, ∀ hard ∈ o.sent, ∀ round txs subdag,
      soft.event = .softCommit round subdag.leader txs → hard.event = .hardCommit subdag →
      (∃ before between after, o.sent = before ++ soft :: between ++ hard :: after) ∧
      (txs.Perm subdag.txs ↔ ∀ b ∈ soft.dag.causalBlocks subdag.leader, b.transactions ≠ [] →
        b.reference ∉ hard.dag.committed) := by
  intro o soft hsoft hard hhard round txs subdag hevent hevent'
  have hdelivered : ∀ b ∈ o.accepted, b ∈ batches.flatten :=
    mem_run_accepted (BlockManager.registered_new _) (fun k s hs => (by cases hs)) fun b hb => hb
  have hdrawn : ∀ e ∈ o.sent, e.Drawn U :=
    (causalNode_new sha3 U).run hdistinct.linksDistinct (nodeLog_new c) (logged_new sha3 c) hfed hcausal
  obtain ⟨verdicts, -, hlog⟩ := run_log sha3 c batches
  have hlower : ∀ b ∈ o.accepted, ∀ a ∈ b.ancestors, a.round < b.round :=
    fun b hb a ha => (hfed b (hdelivered b hb)).lower ha
  -- the leader was sent early before it was committed, and only once
  obtain ⟨front, after, hsplit⟩ := List.append_of_mem hhard
  obtain ⟨e, he, r, t, hearly⟩ := mem_softLeaders.mp (hlog.early hlower front hard after subdag hsplit hevent')
  have hfront : e ∈ o.sent := by
    rw [hsplit]
    exact List.mem_append_left _ he
  obtain rfl : soft = e := eq_of_softLeaders_nodup hlog.once hsoft hfront hevent hearly
  obtain ⟨before, between, rfl⟩ := List.append_of_mem he
  refine ⟨⟨before, between, after, hsplit⟩, ?_⟩
  obtain ⟨hstored', hfresh', htxs'⟩ := (hlog.reads hard hhard).hard hevent'
  obtain ⟨-, rfl⟩ := (hlog.reads soft hsoft).soft hevent
  have hgrows : soft.dag.committed ⊆ hard.dag.committed := by
    have hpairs := hlog.grows
    rw [hsplit] at hpairs
    exact (List.pairwise_append.mp hpairs).2.2 soft he hard (List.mem_cons_self ..)
  obtain ⟨hsource, hclosed, hstored, hpos⟩ := hdrawn soft hsoft
  obtain ⟨hsource', hclosed', -, -⟩ := hdrawn hard hhard
  rw [hevent] at hstored hpos
  have hsorted : subdag.txs.Perm (hard.dag.causalTxs subdag.leader) := by
    rw [htxs']
    exact (sortSubDagBlocks_perm _).flatMap_right _
  have hiff : (soft.dag.causalTxs subdag.leader).Perm (hard.dag.causalTxs subdag.leader) ↔ _ :=
    payload_iff hsource hsource' hclosed hclosed' hgrows hpos hstored hstored' hfresh'
  rw [← hiff]
  exact ⟨fun hperm => hperm.trans hsorted, fun hperm => hperm.trans hsorted.symm⟩

/-- The chain of links, each with one transaction. -/
def loaded (n : Nat) : VerifiedBlock :=
  ⟨{ (link n).block with transactions := [⟨[UInt8.ofNat n]⟩] }, 0⟩

/-- The first eight links of it. -/
def loadedLinks : List VerifiedBlock :=
  [loaded 0, loaded 1, loaded 2, loaded 3, loaded 4, loaded 5, loaded 6, loaded 7]

def loadedChain : Universe (Committee.equal 0) :=
  .ofBlocks .single loadedLinks ∅ (by decide) (by decide) Committee.single_faults (by decide)

theorem loadedChain_distinct : loadedChain.Distinct := by
  have hall : ∀ b ∈ loadedLinks, b.ancestors.Nodup := by decide
  exact fun r b hb => hall b (Universe.mem_of_ofBlocks hb)

/-- Delivered one by one, the third link is sent early and committed with the same payload
in another order. -/
theorem run_payload_loaded :
    let o := (ConsensusNode.new (fun _ => 0) (Committee.equal 0)).run (fun _ => 0)
      [[loaded 0], [loaded 1], [loaded 2], [loaded 3], [loaded 4]]
    o.events = [.softCommit 3 (loaded 2).reference [⟨[2]⟩, ⟨[1]⟩, ⟨[0]⟩],
        .hardCommit ⟨(loaded 2).reference, [toSharedBlock (loaded 0), toSharedBlock (loaded 1),
          toSharedBlock (loaded 2)], 0, 1⟩] ∧
      ∀ soft ∈ o.sent, ∀ hard ∈ o.sent, ∀ round txs subdag,
        soft.event = .softCommit round subdag.leader txs → hard.event = .hardCommit subdag →
        (txs.Perm subdag.txs ↔ ∀ b ∈ soft.dag.causalBlocks subdag.leader, b.transactions ≠ [] →
          b.reference ∉ hard.dag.committed) := by
  refine ⟨by decide +kernel, fun soft hsoft hard hhard round txs subdag hevent hevent' => ?_⟩
  exact (run_payload_iff _ loadedChain loadedChain_distinct (by decide +kernel) (by decide +kernel) soft hsoft hard hhard
    round txs subdag hevent hevent').2

/-- Delivered at once, the sixth link is sent early with all six transactions, but the third
is committed first and leaves it three. -/
theorem early_payload_lost :
    let o := (ConsensusNode.new (fun _ => 0) (Committee.equal 0)).run (fun _ => 0) [loadedLinks]
    (loadedChain.Distinct ∧ (∀ b ∈ loadedLinks, loadedChain.Has b) ∧
      (DagState.new (fun _ => 0) (Committee.equal 0)).CausalOrder (BlockManager.processed [loadedLinks])) ∧
      ∃ txs subdag, .softCommit 6 subdag.leader txs ∈ o.events ∧ .hardCommit subdag ∈ o.events ∧
        ¬ txs.Perm subdag.txs := by
  refine ⟨⟨loadedChain_distinct, by decide +kernel, by decide +kernel⟩,
    [⟨[5]⟩, ⟨[4]⟩, ⟨[3]⟩, ⟨[2]⟩, ⟨[1]⟩, ⟨[0]⟩],
    ⟨(loaded 5).reference, [toSharedBlock (loaded 3), toSharedBlock (loaded 4), toSharedBlock (loaded 5)], 0, 2⟩,
    by decide +kernel, by decide +kernel, by decide⟩

end DualOptimistic.Consensus
