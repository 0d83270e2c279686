import DualOptimistic.Consensus.Liveness
import DualOptimistic.Consensus.OneLeader

/-! What an early commit promises.

An early commit of a leader is backed by a quorum of authors who list it one round up. Wherever
the signal was sent, no node can then skip the leader's slot directly
(`early_leader_not_skipped`). The leader may still lose its slot to the indirect rule; but with
quorum parents every later block has one of those votes in its history, so that the leader's block
is committed by the next leader at the latest (`early_leader_included`). -/
namespace DualOptimistic.Consensus
open Data

section
variable {sha3 : List UInt8 → BlockDigest} {c : Committee} {U : Universe c}

/-- The leader of an early commit was listed one round up by a quorum of authors. -/
theorem quorum_of_softCommit {batches : List (List VerifiedBlock)} {round : Round} {leader : BlockRef}
    {txs : List EthSignedTx}
    (h : .softCommit round leader txs ∈ ((ConsensusNode.new sha3 c).run sha3 batches).events) :
    ∃ w, 0 < w ∧ leader.slot = leaderSlot c w ∧
      Universe.Backed c (· ∈ batches.flatten) (3 * w + 1) fun b => leader ∈ b.ancestors := by
  obtain ⟨verdicts, -, hlog⟩ := run_log sha3 c batches
  have hdelivered : ∀ b ∈ ((ConsensusNode.new sha3 c).run sha3 batches).accepted, b ∈ batches.flatten :=
    mem_run_accepted (BlockManager.registered_new _) (fun k s hs => (by cases hs)) fun b hb => hb
  obtain ⟨e, he, hevent⟩ := List.mem_map.mp h
  obtain ⟨w, hw, hslot, hquorum⟩ :=
    quorum_castVotes_iff.mp ((hlog.quorums leader).mp (mem_softLeaders.mpr ⟨e, he, round, txs, hevent⟩))
  have hround : leader.round = 3 * w := congrArg Slot.round hslot
  refine ⟨w, hw, hslot, _, hquorum, fun i hi => ?_⟩
  rw [listers, List.mem_toFinset, List.mem_map] at hi
  obtain ⟨b, hb, hbi⟩ := hi
  obtain ⟨hb, hcond⟩ := List.mem_filter.mp hb
  obtain ⟨hbround, hlisted⟩ := of_decide_eq_true hcond
  exact ⟨b, hdelivered b hb, hbi, hround ▸ hbround, hlisted⟩

/-- A slot with a leader that a quorum lists is not blamed by a quorum. -/
theorem Universe.Drawn.not_blamed {dag : DagState} (h : U.Drawn dag) {w : Nat} {leader : BlockRef}
    (hvotes : Universe.Backed c U.Has (3 * w + 1) fun b => leader ∈ b.ancestors) :
    dag.enoughLeaderBlame (3 * w + 1) leader.author = false := by
  by_contra hblame
  rw [Bool.not_eq_false, DagState.enoughLeaderBlame, StakeAggregator.addAll_spec, h.committee] at hblame
  obtain ⟨A, hA, hlist⟩ := hvotes
  have hround : 3 * w + 1 + 1 < u32Size := by
    obtain ⟨i, hi⟩ := hA.nonempty
    obtain ⟨b, -, -, hbround, -⟩ := hlist i hi
    have hlt : b.round < u32Size := b.reference.round_lt
    have harith : ∀ n : Nat, 3 * n + 1 < u32Size → 3 * n + 1 + 1 < u32Size := by
      intro n hn
      simp only [u32Size] at hn ⊢
      omega
    exact harith w (hbround ▸ hlt)
  -- an author of both quorums has one block of the round, and it lists the leader
  obtain ⟨b, -, -, hlisted, hblames⟩ := U.exists_common hA hblame hlist fun i hi => by
    rw [List.mem_toFinset, List.mem_map] at hi
    obtain ⟨b, hb, hbi⟩ := hi
    obtain ⟨hb, hblames⟩ := List.mem_filter.mp hb
    obtain ⟨hstored, hbround, -⟩ := (DagState.mem_getUncommittedBlocksAtRound hround).mp hb
    exact ⟨b, h.has hstored, hbi, hbround, hblames⟩
  have hne := List.all_eq_true.mp hblames leader hlisted
  rw [bne_self_eq_false] at hne
  cases hne

end

/-! ### A leader that loses its slot -/

/-- One block by each of the authors, listing those of the parents of the round before. -/
def layer (round : Nat) (authors parents : List AuthorityIndex) : List VerifiedBlock :=
  authors.map fun i => plainBlock round i (parents.map fun j => .new (round - 1) j 0)

/-- Authority 3 leads round 3, and all but it list its block one round up. -/
def voted : List VerifiedBlock :=
  layer 1 [0, 1, 2] [0, 1, 2] ++ layer 2 [0, 1, 2] [0, 1, 2] ++ layer 3 [0, 1, 2, 3] [0, 1, 2] ++
    layer 4 [0, 1, 2] [0, 1, 3] ++ layer 4 [3] [0, 1, 2]

/-- No decision block lists all three votes. The leader of round 6 is certified. -/
def overtaken : List VerifiedBlock :=
  voted ++ layer 5 [0] [0, 1, 3] ++ layer 5 [1] [0, 2, 3] ++ layer 5 [2] [1, 2, 3] ++
    layer 6 [0, 1, 2] [0, 1, 2] ++ layer 7 [0, 1, 2] [0, 1, 2] ++ layer 8 [0, 1, 2] [0, 1, 2]

theorem fourAuthorities_faults : fourAuthorities.quorums.total ∅ ≤ fourAuthorities.faultTolerance := by decide

def overtaking : Universe fourAuthorities :=
  .ofBlocks fourAuthorities overtaken ∅ (by decide +kernel) (by decide +kernel) fourAuthorities_faults
    (by decide +kernel)

theorem overtaking_distinct : overtaking.Distinct := by
  have hall : ∀ b ∈ overtaken, b.ancestors.Nodup := by decide +kernel
  exact fun r b hb => hall b (Universe.mem_of_ofBlocks hb)

theorem overtaking_parents : overtaking.QuorumParents := by
  have hall : ∀ b ∈ overtaken, 0 < b.round → fourAuthorities.Quorum
      ((b.ancestors.filter fun a => decide (a.round + 1 = b.round)).map BlockRef.author).toFinset := by
    decide +kernel
  exact fun r b hb => hall b (Universe.mem_of_ofBlocks hb)

/-- **An early leader is not skipped directly.** A node that was fed blocks of a universe, in
whatever order, has sent an early commit; then, if no block lists a reference twice, at no node
that was fed blocks of it in causal order does the direct rule skip the slot of the leader, or
ever will. -/
theorem early_leader_not_skipped (sha3 : List UInt8 → BlockDigest) {c : Committee} (U : Universe c)
    (hdistinct : U.Distinct) {batches batches' : List (List VerifiedBlock)}
    (hfed : ∀ b ∈ batches.flatten, U.Has b) (hfed' : ∀ b ∈ batches'.flatten, U.Has b)
    (hcausal' : (DagState.new sha3 c).CausalOrder (BlockManager.processed batches')) {round : Round}
    {leader : BlockRef} {txs : List EthSignedTx}
    (hearly : .softCommit round leader txs ∈ ((ConsensusNode.new sha3 c).run sha3 batches).events) :
    ∃ node, ((ConsensusNode.new sha3 c).run sha3 batches').node = .ok node ∧
      node.manager.dagState.tryDirectDecide {} leader.slot ≠ .ok (.skip leader.slot) := by
  obtain ⟨w, -, hslot, hvotes⟩ := quorum_of_softCommit hearly
  obtain ⟨vs, new, node, hadds⟩ := (causal_new sha3 U).run hdistinct.linksDistinct hfed' hcausal'
  have hround : leader.slot.round = 3 * w := congrArg Slot.round hslot
  have hblame : node.manager.dagState.enoughLeaderBlame (leader.slot.round + 1) leader.slot.authority = false := by
    rw [hround]
    exact hadds.causal.reached.drawn.not_blamed (hvotes.mono hfed)
  refine ⟨node, hadds.node, fun hskip => ?_⟩
  rw [DagState.tryDirectDecide, hblame, if_neg Bool.false_ne_true] at hskip
  obtain ⟨supported, -, hskip⟩ := except_bind_ok_iff.mp hskip
  split at hskip
  · cases hskip
  · cases hskip
  · cases hskip

/-- The slot is skipped in the end, but not directly. -/
theorem early_leader_not_skipped_overtaken :
    let run := (ConsensusNode.new (fun _ => 0) fourAuthorities).run (fun _ => 0)
    (run [overtaken]).decided.map DecidedLeader.slot = [⟨3, 3⟩, ⟨6, 2⟩] ∧
      (run [overtaken]).decided.head? = some (.skip ⟨3, 3⟩) ∧
      ∃ node, (run [overtaken]).node = .ok node ∧
        node.manager.dagState.tryDirectDecide {} ⟨3, 3⟩ ≠ .ok (.skip ⟨3, 3⟩) := by
  refine ⟨by decide +kernel, by decide +kernel, ?_⟩
  exact @early_leader_not_skipped (fun _ => 0) _ overtaking overtaking_distinct [voted] [overtaken]
    (by decide +kernel) (by decide +kernel) (by decide +kernel) 3 (.new 3 3 0) [] (by decide +kernel)

open Classical in
/-- **An early leader's block is committed by the next leader at the latest.** Two nodes are fed
blocks of one universe in causal order, blocks of quorum parents that list no reference twice, and
one of them has sent an early commit. If the other has committed a leader of a later round, then
the early leader's block is in that commit or in one before it. -/
theorem early_leader_included (sha3 : List UInt8 → BlockDigest) {c : Committee} (U : Universe c)
    (hdistinct : U.Distinct) (hparents : U.QuorumParents) {batches batches' : List (List VerifiedBlock)}
    (hfed : ∀ b ∈ batches.flatten, U.Has b) (hfed' : ∀ b ∈ batches'.flatten, U.Has b)
    (hcausal : (DagState.new sha3 c).CausalOrder (BlockManager.processed batches))
    (hcausal' : (DagState.new sha3 c).CausalOrder (BlockManager.processed batches')) {round : Round}
    {leader : BlockRef} {txs : List EthSignedTx}
    (hearly : .softCommit round leader txs ∈ ((ConsensusNode.new sha3 c).run sha3 batches).events)
    {before after : List OurCommittedSubDag} {subdag : OurCommittedSubDag}
    (hcommit : hardCommits ((ConsensusNode.new sha3 c).run sha3 batches').events = before ++ subdag :: after)
    (hlater : leader.round < subdag.leader.round) :
    ∃ s ∈ before ++ [subdag], leader ∈ s.blocks.map OurVerifiedBlock.blockRef := by
  let S := fedRefs (BlockManager.processed batches) ∪ fedRefs (BlockManager.processed batches')
  have hclosed : (U.restrict S).Closed := fed_union_closed hfed hfed' hcausal hcausal'
  have hhas : ∀ b ∈ batches.flatten, (U.restrict S).Has b := fun b hb =>
    Universe.restrict_has.mpr ⟨.inl ⟨b, mem_processed_iff.mpr hb, rfl⟩, hfed b hb⟩
  obtain ⟨vs, new, node, hadds⟩ := (causal_new sha3 (U.restrict S)).run hdistinct.restrict.linksDistinct
    (fun b hb => Universe.restrict_has.mpr ⟨.inr ⟨b, mem_processed_iff.mpr hb, rfl⟩, hfed' b hb⟩) hcausal'
  have hreached := hadds.causal.reached
  rw [List.nil_append, List.nil_append] at hreached
  rw [hadds.commits] at hcommit
  obtain ⟨front, rest, hsplit, rfl, hrest⟩ := List.map_eq_append_iff.mp hcommit
  obtain ⟨d, back, rfl, rfl, -⟩ := List.map_eq_cons_iff.mp hrest
  obtain ⟨next, hnext, hnexthas, hnextd, hhistory⟩ := hreached.history hclosed hsplit
  -- the later leader is two rounds above the votes at least
  obtain ⟨w, hw, hslot, A, hA, hlist⟩ := quorum_of_softCommit hearly
  have hround : leader.round = 3 * w := congrArg Slot.round hslot
  have hpos : 0 < leader.round := hround ▸ Nat.mul_pos (by decide) hw
  have habove : 3 * w + 1 < next.round := by
    obtain ⟨i, hi⟩ := List.mem_iff_getElem?.mp hnext
    have hnextround : next.round = 3 * (i + 1) := congrArg Slot.round (hreached.leaders i next hi).2
    have hlt : leader.round < next.reference.round := hnextd ▸ hlater
    rw [VerifiedBlock.reference_round, hround, hnextround] at hlt
    rw [hnextround]
    have harith : ∀ n m : Nat, 3 * n < 3 * (m + 1) → 3 * n + 1 < 3 * (m + 1) := by omega
    exact harith w i hlt
  obtain ⟨v, hv, -, hlisted, hreach⟩ := Universe.exists_reached hclosed hparents.restrict (Nat.succ_pos _) hA
    (fun i hi => by
      obtain ⟨b, hb, hrest⟩ := hlist i hi
      exact ⟨b, hhas b hb, hrest⟩) hnexthas habove
  obtain ⟨x, hx⟩ := hclosed _ v hv leader hlisted hpos
  have hxref : x.reference = leader := (U.restrict S).keyed hx
  have hxpos : 0 < x.round := by
    rw [← VerifiedBlock.reference_round, hxref]
    exact hpos
  obtain ⟨s, hs, hxs⟩ := mem_toSharedSubdag (hhistory x (.inr (hreach.tail ⟨leader, hlisted, hx⟩)) hxpos)
  rw [List.map_append, List.map_singleton] at hs
  exact ⟨s, hs, List.mem_map.mpr ⟨toSharedBlock x, hxs, hxref⟩⟩

/-- The one commit is that of the leader of round 6. -/
theorem early_leader_included_overtaken :
    let run := (ConsensusNode.new (fun _ => 0) fourAuthorities).run (fun _ => 0)
    .softCommit 3 (.new 3 3 0) [] ∈ (run [voted]).events ∧
      ∃ subdag, hardCommits (run [overtaken]).events = [subdag] ∧ subdag.leader = .new 6 2 0 ∧
        BlockRef.new 3 3 0 ∈ subdag.blocks.map OurVerifiedBlock.blockRef := by
  intro run
  have hearly : .softCommit 3 (.new 3 3 0) [] ∈ (run [voted]).events := by decide +kernel
  have hleaders : (hardCommits (run [overtaken]).events).map OurCommittedSubDag.leader = [.new 6 2 0] := by
    decide +kernel
  obtain ⟨subdag, hcommits, hleader⟩ := List.map_eq_singleton_iff.mp hleaders
  refine ⟨hearly, subdag, hcommits, hleader, ?_⟩
  obtain ⟨s, hs, hmem⟩ := @early_leader_included (fun _ => 0) _ overtaking overtaking_distinct overtaking_parents
    [voted] [overtaken] (by decide +kernel) (by decide +kernel) (by decide +kernel) (by decide +kernel) 3
    (.new 3 3 0) [] hearly [] [] subdag hcommits (by rw [hleader]; decide)
  rwa [List.mem_singleton.mp hs] at hmem

end DualOptimistic.Consensus
