import DualOptimistic.Node.Replicas
import DualOptimistic.Consensus.EarlyInclusion

/-! From blocks to confirmed execution.

Where honest leaders are supported, a node commits every wave, each early before finally; with few
waves open at a time the scheduler hands each out early and then confirms it; and the pipeline of
the wired node delivers all of it, whatever the interleaving. So every such wave is executed once,
early, under the index it is later confirmed with (`supported_waves_confirmed`). -/
namespace DualOptimistic.Node
open Data Consensus Scheduler

/-! ### The scheduler -/

/-- **The final commits of waves that go well are confirmed**, over a whole run. -/
theorem confirms_smooth {W : Nat} {events : List ConsensusEvent} (h : Smooth W events) :
    List.Forall₂ (fun subdag d => ∀ w < W, subdag.leader.round = 3 * (w + 1) →
      d = .commit subdag.commitIndex subdag.leader.round) (hardCommits events) (decisions (ranOn events).1) := by
  induction events using List.reverseRecOn with
  | nil => exact .nil
  | append_singleton events e ih =>
    rw [ranOn_append, hardCommits_append, decisions_append]
    refine List.rel_append (ih h.of_append) ?_
    cases e with
    | softCommit round leader txs =>
      show List.Forall₂ _ [] (decisions ((ranOn events).2.handleSoftCommit round txs).1)
      rw [decisions_soft]
      exact .nil
    | hardCommit subdag => exact .cons (fun w hw hround => h.confirmed hw hround) .nil

/-- What is executed early: the leader rounds below the next, each under the number of its wave. -/
theorem executed_rounds (inputs : List Input) :
    let ran := PipelineScheduler.new.run inputs
    ∃ k, ((batches ran.1).map executorEvent).map (fun e => (e.round, e.commitIndex, e.isOptimistic)) =
      (List.range' 1 k).map (fun w => (3 * w, w, true)) ∧ ran.2.pending.nextDispatchRound = 3 * (k + 1) := by
  intro ran
  obtain ⟨k, hrounds, hnext⟩ := run_rounds inputs
  refine ⟨k, ?_, hnext⟩
  have hbatch : ∀ b ∈ batches ran.1, (b.round, b.commitIndex, b.isOptimistic) = (b.round, b.round / 3, true) := by
    intro b hb
    obtain ⟨-, item, rfl⟩ := (run_tracks inputs).below hb
    rfl
  calc ((batches ran.1).map executorEvent).map (fun e => (e.round, e.commitIndex, e.isOptimistic))
      = (batches ran.1).map fun b => (b.round, b.round / 3, true) := by
        rw [List.map_map]
        exact List.map_congr_left hbatch
    _ = ((batches ran.1).map TxBatch.round).map fun r => (r, r / 3, true) := by
        rw [List.map_map]
        rfl
    _ = (List.range' 1 k).map (fun w => (3 * w, w, true)) := by
        rw [hrounds, List.range'_eq_map_range, List.map_map, List.map_map]
        refine List.map_congr_left fun j _ => ?_
        show (3 * (j + 1), 3 * (j + 1) / 3, true) = (3 * (1 + j), 1 + j, true)
        rw [Nat.mul_div_cancel_left _ (by decide), Nat.add_comm]

/-! ### The node -/

section
variable {sha3 : List UInt8 → BlockDigest} {c : Committee} {U : Universe c} {batches : List (List VerifiedBlock)}

theorem softCommit_round {round : Round} {leader : BlockRef} {txs : List EthSignedTx}
    (h : .softCommit round leader txs ∈ ((ConsensusNode.new sha3 c).run sha3 batches).events) :
    round = leader.round := by
  obtain ⟨verdicts, -, hlog⟩ := run_log sha3 c batches
  obtain ⟨e, he, hevent⟩ := List.mem_map.mp h
  have hreads := hlog.reads e he
  unfold Emission.Reads at hreads
  rw [hevent] at hreads
  exact hreads.1

/-- A leader is committed early before it is committed finally. -/
theorem soft_before_hard (hfed : ∀ b ∈ batches.flatten, U.Has b) {before after : List ConsensusEvent}
    {subdag : OurCommittedSubDag}
    (hsplit : ((ConsensusNode.new sha3 c).run sha3 batches).events = before ++ .hardCommit subdag :: after) :
    ∃ txs, .softCommit subdag.leader.round subdag.leader txs ∈ before := by
  obtain ⟨verdicts, -, hlog⟩ := run_log sha3 c batches
  have hdelivered : ∀ b ∈ ((ConsensusNode.new sha3 c).run sha3 batches).accepted, b ∈ batches.flatten :=
    mem_run_accepted (BlockManager.registered_new _) (fun k s hs => (by cases hs)) fun b hb => hb
  have hfirst := hlog.early fun b hb a ha => (hfed b (hdelivered b hb)).lower ha
  obtain ⟨front, tail, hsent, rfl, htail⟩ := List.map_eq_append_iff.mp hsplit
  obtain ⟨e, back, rfl, hevent, -⟩ := List.map_eq_cons_iff.mp htail
  obtain ⟨x, hx, round, txs, hsoft⟩ := mem_softLeaders.mp (hfirst front e back subdag hsent hevent)
  have hmem : .softCommit round subdag.leader txs ∈ front.map Emission.event := List.mem_map.mpr ⟨x, hx, hsoft⟩
  have hround : round = subdag.leader.round := softCommit_round (by
    rw [hsplit]
    exact List.mem_append_left _ hmem)
  exact ⟨txs, hround ▸ hmem⟩

/-- The leader of a wave that is committed early is the block of its author, if that is honest. -/
theorem softCommit_leader (hfed : ∀ b ∈ batches.flatten, U.Has b)
    (hcausal : (DagState.new sha3 c).CausalOrder (BlockManager.processed batches)) {w : WaveNumber}
    {leader : VerifiedBlock} (hleader : leader ∈ batches.flatten) (hslot : leader.slot = leaderSlot c w)
    (hhonest : leader.author ∉ U.byzantine) {reference : BlockRef} {txs : List EthSignedTx}
    (h : .softCommit (3 * w) reference txs ∈ ((ConsensusNode.new sha3 c).run sha3 batches).events) :
    reference = leader.reference := by
  obtain ⟨w', hw', hslot', A, hA, hlist⟩ := quorum_of_softCommit h
  have hround : reference.round = 3 * w := (softCommit_round h).symm
  have hround' : reference.round = 3 * w' := congrArg Slot.round hslot'
  obtain rfl : w = w' := Nat.eq_of_mul_eq_mul_left (by decide) (hround.symm.trans hround')
  -- a block that lists it was fed after it
  obtain ⟨i, hi⟩ := hA.nonempty
  obtain ⟨v, hv, -, -, hlisted⟩ := hlist i hi
  obtain ⟨x, hx, hxr⟩ := fed_ancestors hcausal (mem_processed_iff.mpr hv) hlisted (hround ▸ Nat.mul_pos (by decide) hw')
  have hxslot : leader.slot = x.slot := by
    rw [hslot, ← hslot', ← hxr]
    rfl
  rw [U.honest (hfed leader hleader) (hfed x (mem_processed_iff.mp hx)) hhonest hxslot, hxr]

/-- The final commit of a supported wave. -/
theorem supported_commit {blocks : List VerifiedBlock} {W : WaveNumber} {leader : WaveNumber → VerifiedBlock}
    (hsupported : Supported c blocks leader W) {commits : List OurCommittedSubDag}
    (hcommits : (List.range' 1 W).map (fun w => ((leader w).reference, w)) <+:
      commits.map fun s => (s.leader, s.commitIndex)) {i : Nat} (hi : i < W) :
    ∃ subdag, commits[i]? = some subdag ∧ subdag.leader.round = 3 * (i + 1) ∧ subdag.commitIndex = i + 1 := by
  have hlength : i < ((List.range' 1 W).map fun w => ((leader w).reference, w)).length := by
    rw [List.length_map, List.length_range']
    exact hi
  have hget := List.prefix_iff_getElem?.mp hcommits i hlength
  rw [(range'_map_getElem hlength).2, List.getElem?_map, Option.map_eq_some_iff] at hget
  obtain ⟨subdag, hsubdag, hpair⟩ := hget
  refine ⟨subdag, hsubdag, ?_, congrArg Prod.snd hpair⟩
  rw [show subdag.leader = _ from congrArg Prod.fst hpair]
  exact congrArg Slot.round (hsupported.leaders (i + 1) (Nat.succ_pos i) hi).2

/-- **A node with supported, honest leaders** sends events that go well, as long as few waves are
open at a time. -/
theorem supported_smooth (hdistinct : U.Distinct) (hparents : U.QuorumParents)
    (hfed : ∀ b ∈ batches.flatten, U.Has b)
    (hcausal : (DagState.new sha3 c).CausalOrder (BlockManager.processed batches)) {W : WaveNumber}
    {leader : WaveNumber → VerifiedBlock} (hsupported : Supported c batches.flatten leader W)
    (hhonest : ∀ w, 0 < w → w ≤ W → (leader w).author ∉ U.byzantine)
    (hfew : FewOpen ((ConsensusNode.new sha3 c).run sha3 batches).events) :
    Smooth W ((ConsensusNode.new sha3 c).run sha3 batches).events := by
  obtain ⟨vs, node, -, -, -, hcommits, hrounds⟩ := hsupported.run hdistinct hparents hfed hcausal
  refine ⟨hfew, fun w hw => ?_, fun before subdag after hsplit w hw hle => ?_, ?_⟩
  · obtain ⟨verdicts, -, hlog⟩ := run_log sha3 c batches
    obtain ⟨hleader, hslot⟩ := hsupported.leaders (w + 1) (Nat.succ_pos w) hw
    have hleaders : ∀ e ∈ ((ConsensusNode.new sha3 c).run sha3 batches).sent, e.event.isSoft = true →
        e.event.round = 3 * (w + 1) → ∃ txs, e.event = .softCommit (3 * (w + 1)) (leader (w + 1)).reference txs := by
      intro e he hsoft hround
      cases hevent : e.event with
      | hardCommit subdag =>
        rw [hevent] at hsoft
        cases hsoft
      | softCommit round reference txs =>
        rw [hevent] at hround
        obtain rfl : round = 3 * (w + 1) := hround
        have hmem : .softCommit (3 * (w + 1)) reference txs ∈ ((ConsensusNode.new sha3 c).run sha3 batches).events :=
          List.mem_map.mpr ⟨e, he, hevent⟩
        have hreference := softCommit_leader hfed hcausal hleader hslot (hhonest (w + 1) (Nat.succ_pos w) hw) hmem
        exact ⟨txs, by rw [hreference]⟩
    have honce := List.pairwise_filterMap.mp hlog.once
    refine List.pairwise_map.mpr (honce.imp_of_mem fun {e e'} he he' hne hsoft hsoft' hround hround' => ?_)
    obtain ⟨txs, hevent⟩ := hleaders e he hsoft hround
    obtain ⟨txs', hevent'⟩ := hleaders e' he' hsoft' hround'
    exact hne _ (by rw [hevent]) _ (by rw [hevent']) rfl
  · -- the final commit of the wave is this one or came before it
    obtain ⟨x, hx, hxround, -⟩ := supported_commit hsupported hcommits hw
    have hmem := List.mem_of_getElem? hx
    have hall : hardCommits ((ConsensusNode.new sha3 c).run sha3 batches).events =
        hardCommits before ++ subdag :: hardCommits after := by
      rw [hsplit, hardCommits_append]
      rfl
    rw [hall] at hmem hrounds
    rcases List.mem_append.mp hmem with hmem | hmem
    · obtain ⟨front, back, rfl⟩ := List.append_of_mem (mem_hardCommits.mp hmem)
      have hearlier : ((ConsensusNode.new sha3 c).run sha3 batches).events =
          front ++ .hardCommit x :: (back ++ .hardCommit subdag :: after) := by
        rw [hsplit, List.append_assoc, List.cons_append]
      obtain ⟨txs, hsoft⟩ := soft_before_hard hfed hearlier
      exact ⟨x.leader, txs, List.mem_append_left _ (hxround ▸ hsoft)⟩
    · rcases List.mem_cons.mp hmem with rfl | hmem
      · obtain ⟨txs, hsoft⟩ := soft_before_hard hfed hsplit
        exact ⟨x.leader, txs, hxround ▸ hsoft⟩
      · have hlt := (List.pairwise_cons.mp (List.pairwise_append.mp hrounds).2.1).1 x hmem
        rw [hxround] at hlt
        exact absurd hlt (Nat.not_lt_of_le hle)
  · refine (List.pairwise_filterMap.mp hrounds).imp fun {e e'} hlt hhard hhard' => ?_
    cases e with
    | softCommit round leader txs => cases hhard
    | hardCommit subdag =>
      cases e' with
      | softCommit round leader txs => cases hhard'
      | hardCommit subdag' => exact Nat.ne_of_lt (hlt subdag rfl subdag' rfl)

end

/-! ### End to end -/

/-- **Supported waves are executed early and confirmed.** A node is fed blocks of a universe, of
quorum parents and with no reference listed twice, in causal order, and every wave up to `W` has
an honest leader that the blocks of its voting round support, and decision blocks of a quorum. The
pipeline behind it has no delay, the channel keeps all events, and no more waves than the
threshold are open at a time. When no party can go on, each of these waves was executed early, one
after the other, and confirmed under the same index. -/
theorem supported_waves_confirmed (sha3 : List UInt8 → BlockDigest) {c : Committee} (U : Universe c)
    (hdistinct : U.Distinct) (hparents : U.QuorumParents) {batches : List (List VerifiedBlock)}
    (hfed : ∀ b ∈ batches.flatten, U.Has b)
    (hcausal : (DagState.new sha3 c).CausalOrder (BlockManager.processed batches)) {W : WaveNumber}
    {leader : WaveNumber → VerifiedBlock} (hsupported : Supported c batches.flatten leader W)
    (hhonest : ∀ w, 0 < w → w ≤ W → (leader w).author ∉ U.byzantine) {events : List ConsensusEvent}
    (hevents : events = ((ConsensusNode.new sha3 c).run sha3 batches).events) (hfew : FewOpen events)
    (hkept : events.length ≤ eventChannelCapacity) {actions : List NodeAction} {s : TestNode}
    (hrun : (TestNode.new events).run false actions = some s) (hstuck : Stuck false s) :
    (List.range' 1 W).map (fun w => .commit w (3 * w)) <+: s.commitEvents ∧
      (List.range' 1 W).map (fun w => (3 * w, w, true)) <+:
        s.executorEvents.map fun e => (e.round, e.commitIndex, e.isOptimistic) := by
  obtain ⟨hexecuted, hcommitted⟩ := ((consistent_new false events).of_run hrun).delivered hkept hstuck
  subst hevents
  have hsmooth := supported_smooth hdistinct hparents hfed hcausal hsupported hhonest hfew
  obtain ⟨vs, node, -, -, -, hcommits, -⟩ := hsupported.run hdistinct hparents hfed hcausal
  have hanswers := List.forall₂_iff_get.mp (confirms_smooth hsmooth)
  constructor
  · refine List.prefix_iff_getElem?.mpr fun i hi => ?_
    obtain ⟨hlt, hget⟩ := range'_map_getElem hi
    obtain ⟨subdag, hsubdag, hround, hindex⟩ := supported_commit hsupported hcommits hlt
    obtain ⟨hbound, hentry⟩ := List.getElem?_eq_some_iff.mp hsubdag
    have hdecided := hanswers.2 i hbound (hanswers.1 ▸ hbound) i hlt (by rw [List.get_eq_getElem, hentry, hround])
    rw [List.get_eq_getElem, List.get_eq_getElem, hentry, hround, hindex] at hdecided
    rw [hget, hcommitted, List.getElem?_map]
    have hat := List.getElem?_eq_getElem (hanswers.1 ▸ hbound)
    rw [hdecided] at hat
    exact (congrArg (Option.map commitEvent) hat)
  · obtain ⟨k, hrounds, hnext⟩ := executed_rounds (((ConsensusNode.new sha3 c).run sha3 batches).events.map .event)
    rw [hexecuted, hrounds]
    -- the queue has gone past the last of these waves
    have hle : W ≤ k := by
      cases W with
      | zero => exact Nat.zero_le k
      | succ w =>
        obtain ⟨subdag, hsubdag, hround, -⟩ := supported_commit hsupported hcommits (Nat.lt_succ_self w)
        have hpast := hsmooth.past (Nat.lt_succ_self w) hround (mem_hardCommits.mp (List.mem_of_getElem? hsubdag))
        rw [ranOn, hnext] at hpast
        exact Nat.lt_of_succ_lt_succ (Nat.lt_of_mul_lt_mul_left hpast)
    refine List.IsPrefix.map _ ?_
    rw [← Nat.add_sub_cancel' hle, ← List.range'_append_1]
    exact List.prefix_append ..

/-- The chain is broadcast at once; the executor and the commit wrapper come last. -/
theorem supported_waves_confirmed_chain : ∃ s,
    (TestNode.new ((ConsensusNode.new (fun _ => 0) (Committee.equal 0)).run (fun _ => 0) [eightLinks]).events).run false
      (prompt ++ [.receiveBatch, .receiveBatch, .receiveDecision, .receiveDecision]) = some s ∧ Stuck false s ∧
    [.commit 1 3, .commit 2 6] <+: s.commitEvents ∧
      [(3, 1, true), (6, 2, true)] <+: s.executorEvents.map fun e => (e.round, e.commitIndex, e.isOptimistic) := by
  generalize hevents : ((ConsensusNode.new (fun _ => 0) (Committee.equal 0)).run (fun _ => 0) [eightLinks]).events =
    events
  have hdone : ((TestNode.new events).run false
      (prompt ++ [.receiveBatch, .receiveBatch, .receiveDecision, .receiveDecision])).map (fun s =>
        ((s.upcoming.length, s.outbox.length, s.executor.length, s.commit.length, s.backpressure.length),
          s.executorState, s.consensus.position, s.consensus.sent.length)) =
      some ((0, 0, 0, 0, 0), .receiving, 4, 4) := by
    rw [← hevents]
    decide +kernel
  have hfew : FewOpen events := by
    have hall : ∀ done ∈ events.inits, (openRounds done).card ≤ PipelineScheduler.defaultThreshold := by
      rw [← hevents]
      decide +kernel
    exact fun done hfirst => hall done ((List.mem_inits ..).mpr hfirst)
  have hkept : events.length ≤ eventChannelCapacity := by
    rw [← hevents]
    decide +kernel
  obtain ⟨s, hrun, hstate⟩ := Option.map_eq_some_iff.mp hdone
  simp only [Prod.mk.injEq, List.length_eq_zero_iff] at hstate
  obtain ⟨⟨hupcoming, houtbox, hexecutor, hcommit, hbackpressure⟩, hreceiving, hposition, hlength⟩ := hstate
  have hfinished : Finished s :=
    ⟨hupcoming, hposition.trans hlength.symm, houtbox, hexecutor, hcommit, hbackpressure, hreceiving⟩
  have hstuck : Stuck false s := fun a => hfinished.step a
  exact ⟨s, hrun, hstuck, supported_waves_confirmed (fun _ => 0) twoWaves twoWaves_distinct twoWaves_parents
    (by decide +kernel) (by decide +kernel) twoWaves_supported (fun w _ _ => Finset.notMem_empty _) hevents.symm hfew
    hkept hrun hstuck⟩

end DualOptimistic.Node
