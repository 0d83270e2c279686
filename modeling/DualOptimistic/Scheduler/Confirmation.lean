import DualOptimistic.Data.StableSort
import DualOptimistic.Consensus.OneLeader
import DualOptimistic.Consensus.Payload
import DualOptimistic.Scheduler.Pipeline

/-! Confirming an early execution.

The scheduler confirms a final commit by its round alone: whatever was handed out early for
that round counts as its execution. Two things can then differ. The index of the early batch
counts waves, that of the commit counts committed leaders, and they are the same exactly if
no leader before was skipped (`run_commitIndex_iff`). The transactions of the early batch are
in the order of the walk, those of the commit sorted, and taken later; they are the same if
the walk was in sorted order already and took, of every slot, what the commit takes, and
otherwise only by chance (`run_confirmed_iff`). -/
namespace DualOptimistic.Scheduler
open Data Consensus

/-! ### Confirmed rounds -/

/-- A Commit was answered to a HardCommit of its round and index, after the one batch of the
round was sent; that batch holds the last early commit of the round. -/
theorem commit_answers {inputs : List Input} {front back : List Output} {ci : Nat} {round : Round}
    (h : (PipelineScheduler.new.run inputs).1 = front ++ .decision (.commit ci round) :: back) :
    ∃ before subdag after txs leader, inputs = before ++ .event (.hardCommit subdag) :: after ∧
      (PipelineScheduler.new.run before).1 = front ∧ subdag.leader.round = round ∧ subdag.commitIndex = ci ∧
      PipelineScheduler.optimisticBatch (round, txs) ∈ batches front ∧
      lastSoft round (consensusEvents before) = some (.softCommit round leader txs) := by
  obtain ⟨before, subdag, after, hinputs, rfl, hd⟩ := PipelineScheduler.decision_answers h
  have htracks := run_tracks before
  rcases ((PipelineScheduler.new.run before).2.handleHardCommit_cases subdag).2 with hfresh | ⟨hcommit, txs, hget⟩
  · rw [hd] at hfresh
    cases hfresh
  · rw [hd] at hcommit
    obtain ⟨rfl, rfl⟩ := CommitDecision.commit.inj hcommit
    obtain ⟨leader, hlast⟩ := htracks.last hget
    exact ⟨before, subdag, after, txs, leader, hinputs, rfl, rfl, rfl, htracks.marked hget, hlast⟩

/-- A round has one batch. -/
theorem eq_of_batch_round {inputs : List Input} {b b' : TxBatch}
    (hb : b ∈ batches (PipelineScheduler.new.run inputs).1)
    (hb' : b' ∈ batches (PipelineScheduler.new.run inputs).1) (h : b.round = b'.round) : b = b' :=
  List.inj_on_of_nodup_map (run_tracks inputs).once hb hb' h

/-! ### The index -/

/-- The number of a committed leader is that of its wave exactly if no leader before it was
skipped. -/
theorem numbered_wave_iff {c : Committee} {decided : List DecidedLeader} {verdicts : List (Option VerifiedBlock)}
    (hlabel : decided.map DecidedLeader.status = label c 1 (verdicts.map some)) {subdag : OurCommittedSubDag}
    (h : Numbered c verdicts subdag) :
    subdag.leader.round / waveLength = subdag.commitIndex ↔
      ∀ slot, .skip slot ∈ decided → ¬ slot.round < subdag.leader.round := by
  obtain ⟨i, b, hb, hleader, hslot, hindex⟩ := h
  have hround : subdag.leader.round = 3 * (i + 1) := by
    rw [hleader]
    exact congrArg Slot.round hslot
  have hi : i ≤ verdicts.length := (List.getElem?_eq_some_iff.mp hb).1.le
  have hlength : (verdicts.take i).length = i := by rw [List.length_take, Nat.min_eq_left hi]
  have hcount : subdag.leader.round / waveLength = subdag.commitIndex ↔
      ((verdicts.take i).filterMap id).length = (verdicts.take i).length := by
    rw [hround, hindex, hlength, show 3 * (i + 1) / waveLength = i + 1 from Nat.mul_div_cancel_left _ (by decide),
      Nat.add_right_cancel_iff]
    exact eq_comm
  have hbelow : ∀ j : Nat, (leaderSlot c (1 + j)).round < subdag.leader.round ↔ j < i := by
    intro j
    show 3 * (1 + j) < _ ↔ _
    rw [hround, Nat.mul_lt_mul_left (by decide), Nat.add_comm 1 j]
    exact Nat.add_lt_add_iff_right
  rw [hcount, List.filterMap_length_eq_length]
  constructor
  · intro hall slot hskip hlt
    obtain ⟨j, hj, rfl⟩ := (skip_mem_iff hlabel).mp hskip
    have hmem : none ∈ verdicts.take i :=
      List.mem_iff_getElem?.mpr ⟨j, by rw [List.getElem?_take_of_lt ((hbelow j).mp hlt), hj]⟩
    exact Bool.false_ne_true (hall none hmem)
  · intro hnone v hv
    cases v with
    | some b => rfl
    | none =>
      obtain ⟨j, hj⟩ := List.mem_iff_getElem?.mp hv
      have hlt : j < i := by
        have := (List.getElem?_eq_some_iff.mp hj).1
        rwa [hlength] at this
      rw [List.getElem?_take_of_lt hlt] at hj
      exact absurd ((hbelow j).mpr hlt) (hnone _ ((skip_mem_iff hlabel).mpr ⟨j, hj, rfl⟩))

/-- **Commit indices.** Whatever a node was fed, its events may be lost on the way, and the
executor's signals come in between: if the scheduler sends a Commit for a round, it sent one
batch for it before, and that carries the index of the Commit exactly if the node skipped no
leader of a lower round. -/
theorem run_commitIndex_iff (sha3 : List UInt8 → BlockDigest) (c : Committee)
    (deliveries : List (List VerifiedBlock)) {inputs : List Input}
    (horder : (consensusEvents inputs).Sublist ((ConsensusNode.new sha3 c).run sha3 deliveries).events) :
    let o := (ConsensusNode.new sha3 c).run sha3 deliveries
    let outputs := (PipelineScheduler.new.run inputs).1
    ∀ front ci round back, outputs = front ++ .decision (.commit ci round) :: back →
      ∃ batch ∈ batches front, batch.round = round ∧ batch.isOptimistic = true ∧
        (∀ b ∈ batches outputs, b.round = round → b = batch) ∧
        (batch.commitIndex = ci ↔ ∀ slot, .skip slot ∈ o.decided → ¬ slot.round < round) := by
  intro o outputs front ci round back hsplit
  obtain ⟨before, subdag, after, txs, leader, hinputs, -, rfl, rfl, hbatch, -⟩ := commit_answers hsplit
  have hmem : PipelineScheduler.optimisticBatch (subdag.leader.round, txs) ∈ batches outputs := by
    rw [hsplit, batches_append]
    exact List.mem_append_left _ hbatch
  refine ⟨_, hbatch, rfl, rfl, fun b hb hround => eq_of_batch_round hb hmem hround, ?_⟩
  have hevent : .hardCommit subdag ∈ consensusEvents inputs := by
    rw [hinputs, consensusEvents_append]
    exact List.mem_append_right _ (List.mem_cons_self ..)
  obtain ⟨e, he, hsent⟩ := List.mem_map.mp (horder.subset hevent)
  obtain ⟨verdicts, hlabel, hlog⟩ := run_log sha3 c deliveries
  exact numbered_wave_iff hlabel (hlog.numbered e he subdag hsent)

/-- Of a chain of five, the third link is confirmed with the index of its batch. -/
theorem run_commitIndex_chain :
    let o := (ConsensusNode.new (fun _ => 0) (Committee.equal 0)).run (fun _ => 0)
      [[link 0, link 1], [link 2, link 3, link 4]]
    let outputs := (PipelineScheduler.new.run (o.events.map .event)).1
    outputs = [.batch ⟨3, 1, [], true⟩] ++ .decision (.commit 1 3) :: [] ∧
      ∃ batch ∈ batches [.batch ⟨3, 1, [], true⟩], batch.round = 3 ∧ batch.isOptimistic = true ∧
        (∀ b ∈ batches outputs, b.round = 3 → b = batch) ∧
        (batch.commitIndex = 1 ↔ ∀ slot, .skip slot ∈ o.decided → ¬ slot.round < 3) := by
  intro o outputs
  have hsent : outputs = [.batch ⟨3, 1, [], true⟩] ++ .decision (.commit 1 3) :: [] := by decide +kernel
  refine ⟨hsent, run_commitIndex_iff (fun _ => 0) (Committee.equal 0) [[link 0, link 1], [link 2, link 3, link 4]]
    ?_ _ 1 3 [] hsent⟩
  rw [consensusEvents_events]

/-! ### A skipped leader -/

/-- A block of the round after `n` with the given parents, of digest 0 like all others here. -/
def vertex (n : Nat) (author : AuthorityIndex) (parents : List AuthorityIndex) : VerifiedBlock :=
  let own := BlockRef.new (n + 1) author 0
  ⟨{ round := own.round, author := own.author, round_lt := own.round_lt
     ancestors := parents.map fun a => .new n a 0 }, own.digest⟩

/-- Four authorities, each with a block that lists all of the round before. -/
def fullRound (n : Nat) : List VerifiedBlock :=
  [0, 1, 2, 3].map fun author => vertex n author [0, 1, 2, 3]

/-- Eight rounds of four authorities, round by round, every block with three parents at least.
Three vote for the leader of round 3, but no block of round 5 lists all three votes. -/
def missedCertificate : List (List VerifiedBlock) :=
  [fullRound 0, fullRound 1, fullRound 2,
    [vertex 3 0 [0, 1, 2], vertex 3 1 [0, 1, 2, 3], vertex 3 2 [0, 1, 2, 3], vertex 3 3 [0, 1, 2, 3]],
    [vertex 4 0 [0, 1, 2], vertex 4 1 [0, 1, 2], vertex 4 2 [0, 1, 2], vertex 4 3 [0, 1, 3]],
    fullRound 5, fullRound 6, fullRound 7]

/-- The leader of round 3 is sent early and then skipped. The leader of round 6 is executed
early under index 2, and confirmed under index 1. -/
theorem skipped_leader_index :
    let o := (ConsensusNode.new (fun _ => 0) (Committee.equal 3)).run (fun _ => 0) missedCertificate
    let outputs := (PipelineScheduler.new.run (o.events.map .event)).1
    .skip ⟨3, 3⟩ ∈ o.decided ∧ outputs =
      [.batch ⟨3, 1, [], true⟩, .batch ⟨6, 2, [], true⟩, .decision (.commit 1 6)] := by
  decide +kernel

/-! ### The transactions -/

/-- The blocks with transactions that the leader of an event would commit from its DAG, in
the order of the walk. -/
def carriers (e : Emission) : List VerifiedBlock :=
  (e.dag.causalBlocks e.event.leader).filter fun b => !b.transactions.isEmpty

/-- The walk of the early commit met its transactions in the order of a sub-dag, and of every
slot those blocks, in that order, that the walk of the final commit meets. -/
structure Confirmable (soft hard : Emission) : Prop where
  ordered : (carriers soft).Pairwise fun a b => a.round < b.round ∨ a.round = b.round ∧ a.author ≤ b.author
  kept : ∀ slot, (carriers soft).filter (fun b => decide (b.slot = slot)) =
    (carriers hard).filter fun b => decide (b.slot = slot)

/-- No transaction is in two of the blocks. -/
def Unshared (blocks : List VerifiedBlock) : Prop :=
  ∀ b ∈ blocks, ∀ b' ∈ blocks, ∀ tx ∈ b.signedTxs, tx ∈ b'.signedTxs → b = b'

theorem Unshared.mono {l m : List VerifiedBlock} (h : Unshared m) (hsub : l ⊆ m) : Unshared l :=
  fun b hb b' hb' => h b (hsub hb) b' (hsub hb')

/-- The last early commit of the round. -/
def lastSent (round : Round) (sent : List Emission) : Option Emission :=
  (sent.filter fun e => e.event.isSoft && decide (e.event.round = round)).getLast?

theorem lastSoft_events (round : Round) (sent : List Emission) :
    lastSoft round (sent.map Emission.event) = (lastSent round sent).map Emission.event := by
  unfold lastSoft lastSent
  rw [List.filter_map, List.getLast?_map]
  rfl

theorem ties_eq_slot (x b : VerifiedBlock) :
    ties (fun a b : VerifiedBlock => a.round < b.round ∨ a.round = b.round ∧ a.author ≤ b.author) x b =
      decide (b.slot = x.slot) := by
  have hslot : b.slot = x.slot ↔ b.round = x.round ∧ b.author = x.author := Slot.mk.injEq .. ▸ Iff.rfl
  refine Bool.eq_iff_iff.mpr ?_
  rw [ties_iff, decide_eq_true_iff, hslot]
  constructor
  · intro h
    obtain ⟨hxb, hbx⟩ := h
    rcases hxb with hxb | ⟨hxb, hxb'⟩
    · rcases hbx with hbx | ⟨hbx, -⟩
      · exact absurd hbx (Nat.lt_asymm hxb)
      · exact absurd hbx (Nat.ne_of_gt hxb)
    · rcases hbx with hbx | ⟨-, hbx'⟩
      · exact absurd hxb (Nat.ne_of_gt hbx)
      · exact ⟨hxb.symm, Nat.le_antisymm hbx' hxb'⟩
  · intro h
    exact ⟨.inr ⟨h.1.symm, h.2.ge⟩, .inr ⟨h.1, h.2.le⟩⟩

/-- Sorting leaves the blocks of a slot as they were. -/
theorem filter_slot_sortSubDagBlocks (slot : Slot) (l : List VerifiedBlock) :
    (sortSubDagBlocks l).filter (fun b => decide (b.slot = slot)) =
      l.filter fun b => decide (b.slot = slot) := by
  refine filter_insertionSort (fun {a b} ha hb => ?_) l
  have hab : a.slot = b.slot := (of_decide_eq_true ha).trans (of_decide_eq_true hb).symm
  exact .inr ⟨congrArg Slot.round hab, (congrArg Slot.authority hab).le⟩

/-- The blocks with transactions of a sub-dag. -/
def sortedCarriers (e : Emission) : List VerifiedBlock :=
  (sortSubDagBlocks (e.dag.causalBlocks e.event.leader)).filter fun b => !b.transactions.isEmpty

/-- An early commit is confirmable exactly if its blocks with transactions are those of the
sub-dag, in its order. -/
theorem confirmable_iff {soft hard : Emission} :
    Confirmable soft hard ↔ carriers soft = sortedCarriers hard := by
  have hsorted : (sortedCarriers hard).Pairwise fun a b =>
      a.round < b.round ∨ a.round = b.round ∧ a.author ≤ b.author :=
    (List.pairwise_insertionSort _ _).filter _
  have hslot : ∀ slot, (sortedCarriers hard).filter (fun b => decide (b.slot = slot)) =
      (carriers hard).filter fun b => decide (b.slot = slot) := by
    intro slot
    rw [sortedCarriers, List.filter_comm, filter_slot_sortSubDagBlocks, List.filter_comm]
    rfl
  constructor
  · intro h
    refine eq_of_ties h.ordered hsorted fun x => ?_
    rw [funext (ties_eq_slot x), hslot]
    exact h.kept x.slot
  · intro h
    refine ⟨h ▸ hsorted, fun slot => ?_⟩
    rw [h, hslot]

/-- Blocks without transactions add none. -/
theorem flatMap_carriers (l : List VerifiedBlock) :
    (l.filter fun b => !b.transactions.isEmpty).flatMap VerifiedBlock.signedTxs =
      l.flatMap VerifiedBlock.signedTxs := by
  induction l with
  | nil => rfl
  | cons b rest ih =>
    cases hb : b.transactions with
    | nil =>
      have hnil : b.signedTxs = [] := by rw [VerifiedBlock.signedTxs, hb]; rfl
      rw [List.filter_cons_of_neg (by simp [hb]), ih, List.flatMap_cons, hnil, List.nil_append]
    | cons tx txs => rw [List.filter_cons_of_pos (by simp [hb]), List.flatMap_cons, ih, List.flatMap_cons]

/-- Without shared transactions, the transactions in order give the blocks in order. -/
theorem eq_of_flatMap_signedTxs {l m : List VerifiedBlock} (hunshared : Unshared (l ++ m))
    (hl : ∀ b ∈ l, b.transactions ≠ []) (hm : ∀ b ∈ m, b.transactions ≠ [])
    (h : l.flatMap VerifiedBlock.signedTxs = m.flatMap VerifiedBlock.signedTxs) : l = m := by
  have hfirst : ∀ b : VerifiedBlock, b.transactions ≠ [] → ∃ tx txs, b.signedTxs = tx :: txs := by
    intro b hb
    obtain ⟨tx, txs, htxs⟩ := List.exists_cons_of_ne_nil hb
    exact ⟨_, _, by rw [VerifiedBlock.signedTxs, htxs]; rfl⟩
  induction l generalizing m with
  | nil =>
    cases m with
    | nil => rfl
    | cons b m =>
      obtain ⟨tx, txs, htxs⟩ := hfirst b (hm b (List.mem_cons_self ..))
      rw [List.flatMap_nil, List.flatMap_cons, htxs] at h
      cases h
  | cons a l ih =>
    obtain ⟨tx, txs, htxs⟩ := hfirst a (hl a (List.mem_cons_self ..))
    cases m with
    | nil =>
      rw [List.flatMap_nil, List.flatMap_cons, htxs] at h
      cases h
    | cons b m =>
      obtain ⟨tx', txs', htxs'⟩ := hfirst b (hm b (List.mem_cons_self ..))
      rw [List.flatMap_cons, List.flatMap_cons] at h
      -- both heads start with the first transaction
      have hsame : tx = tx' := by
        rw [htxs, htxs'] at h
        exact (List.cons.inj h).1
      have hab : a = b := by
        refine hunshared a ?_ b ?_ tx (htxs ▸ List.mem_cons_self ..) (htxs' ▸ hsame ▸ List.mem_cons_self ..)
        · exact List.mem_append_left _ (List.mem_cons_self ..)
        · exact List.mem_append_right _ (List.mem_cons_self ..)
      rw [← hab] at h ⊢
      have hrest : Unshared (l ++ m) := hunshared.mono (List.append_subset.mpr
        ⟨List.subset_append_of_subset_left _ (List.subset_cons_self ..),
          List.subset_append_of_subset_right _ (List.subset_cons_self ..)⟩)
      rw [ih hrest (fun x hx => hl x (List.mem_cons_of_mem _ hx)) (fun x hx => hm x (List.mem_cons_of_mem _ hx))
        (List.append_cancel_left h)]

/-- Early and final transactions: the same if confirmable, and only then if none is shared. -/
theorem txs_eq_iff {soft hard : Emission} (hsoft : soft.Reads) (hhard : hard.Reads) {round : Round}
    {leader : BlockRef} {txs : List EthSignedTx} {subdag : OurCommittedSubDag}
    (hevent : soft.event = .softCommit round leader txs) (hevent' : hard.event = .hardCommit subdag) :
    (Confirmable soft hard → txs = subdag.txs) ∧
      (Unshared (carriers soft ++ carriers hard) → txs = subdag.txs → Confirmable soft hard) := by
  have hleader : soft.event.leader = leader := by rw [hevent]; rfl
  have hleader' : hard.event.leader = subdag.leader := by rw [hevent']; rfl
  have hearly : txs = (carriers soft).flatMap VerifiedBlock.signedTxs := by
    rw [carriers, flatMap_carriers, hleader]
    exact (hsoft.soft hevent).2
  have hfinal : subdag.txs = (sortedCarriers hard).flatMap VerifiedBlock.signedTxs := by
    rw [sortedCarriers, flatMap_carriers, hleader']
    exact (hhard.hard hevent').2.2
  have hloaded : ∀ {l : List VerifiedBlock}, ∀ b ∈ l.filter (fun b => !b.transactions.isEmpty),
      b.transactions ≠ [] := by
    intro l b hb
    simpa using (List.mem_filter.mp hb).2
  have hmem : ∀ b, b ∈ sortedCarriers hard → b ∈ carriers hard :=
    fun b => (((sortSubDagBlocks_perm _).filter _).mem_iff).mp
  rw [hearly, hfinal, confirmable_iff]
  refine ⟨fun h => by rw [h], fun hunshared h => ?_⟩
  have hsub : carriers soft ++ sortedCarriers hard ⊆ carriers soft ++ carriers hard :=
    List.append_subset.mpr ⟨List.subset_append_left _ _, List.subset_append_of_subset_right _ (hmem ·)⟩
  exact eq_of_flatMap_signedTxs (hunshared.mono hsub) hloaded hloaded h

/-- **Confirmed transactions.** Of a node fed in any way, the scheduler handles all events in
order. It answers every HardCommit in its place, with its own transactions to be executed
afresh, or with a Commit after one batch of the round was sent. That batch is of the last
early commit of the round; it holds the transactions of the HardCommit if the early commit is
confirmable, and only then if no transaction is in two of the blocks. It answers nothing
else. -/
theorem run_confirmed_iff (sha3 : List UInt8 → BlockDigest) (c : Committee)
    (deliveries : List (List VerifiedBlock)) :
    let o := (ConsensusNode.new sha3 c).run sha3 deliveries
    let outputs := (PipelineScheduler.new.run (o.events.map .event)).1
    (∀ front hard back subdag, o.sent = front ++ hard :: back → hard.event = .hardCommit subdag →
      let sent := (PipelineScheduler.new.run (front.map fun e => .event e.event)).1
      ∃ d rest, outputs = sent ++ .decision d :: rest ∧
        (d = .freshBatch ⟨subdag.leader.round, subdag.commitIndex, subdag.txs, false⟩ ∨
          d = .commit subdag.commitIndex subdag.leader.round ∧
            ∃ batch ∈ batches sent, batch.round = subdag.leader.round ∧ batch.isOptimistic = true ∧
              (∀ b ∈ batches outputs, b.round = subdag.leader.round → b = batch) ∧
              ∃ soft, lastSent subdag.leader.round front = some soft ∧
                (Confirmable soft hard → batch.txs = subdag.txs) ∧
                (Unshared (carriers soft ++ carriers hard) → batch.txs = subdag.txs → Confirmable soft hard))) ∧
    ∀ sent d rest, outputs = sent ++ .decision d :: rest → ∃ front hard back subdag,
      o.sent = front ++ hard :: back ∧ hard.event = .hardCommit subdag ∧
        sent = (PipelineScheduler.new.run (front.map fun e => .event e.event)).1 := by
  intro o outputs
  have hinputs : o.events.map Input.event = o.sent.map fun e => .event e.event := List.map_map
  obtain ⟨verdicts, -, hlog⟩ := run_log sha3 c deliveries
  refine ⟨fun front hard back subdag hsplit hevent => ?_, fun sent d rest hsplit => ?_⟩
  · intro sent
    let s := (PipelineScheduler.new.run (front.map fun e => .event e.event)).2
    have houtputs : outputs = sent ++ .decision (s.handleHardCommit subdag).1 ::
        ((s.handleHardCommit subdag).2.run (back.map fun e => .event e.event)).1 := by
      show (PipelineScheduler.new.run (o.events.map .event)).1 = _
      rw [hinputs, hsplit, List.map_append, List.map_cons, hevent]
      exact PipelineScheduler.run_hardCommit _ _ _ _
    refine ⟨_, _, houtputs, ?_⟩
    rcases (s.handleHardCommit_cases subdag).2 with hfresh | ⟨hcommit, txs, hget⟩
    · exact .inl hfresh
    · refine .inr ⟨hcommit, ?_⟩
      have htracks := run_tracks (front.map fun e => .event e.event)
      have hbatch := htracks.marked hget
      have hmem : PipelineScheduler.optimisticBatch (subdag.leader.round, txs) ∈ batches outputs := by
        rw [houtputs, batches_append]
        exact List.mem_append_left _ hbatch
      refine ⟨_, hbatch, rfl, rfl, fun b hb hround => eq_of_batch_round hb hmem hround, ?_⟩
      obtain ⟨leader, hlast⟩ := htracks.last hget
      have hevents : consensusEvents (front.map fun e => .event e.event) = front.map Emission.event := by
        rw [← consensusEvents_events (front.map Emission.event), List.map_map]
        rfl
      rw [hevents, lastSoft_events, Option.map_eq_some_iff] at hlast
      obtain ⟨soft, hsoft, hearly⟩ := hlast
      have hsent : soft ∈ o.sent := by
        rw [hsplit]
        exact List.mem_append_left _ (List.mem_filter.mp (List.mem_of_getLast? hsoft)).1
      have hhard : hard ∈ o.sent := by
        rw [hsplit]
        exact List.mem_append_right _ (List.mem_cons_self ..)
      exact ⟨soft, hsoft, txs_eq_iff (hlog.reads soft hsent) (hlog.reads hard hhard) hearly hevent⟩
  · obtain ⟨before, subdag, after, hbefore, rfl, -⟩ := PipelineScheduler.decision_answers hsplit
    rw [hinputs] at hbefore
    obtain ⟨front, tail, hfront, rfl, htail⟩ := List.map_eq_append_iff.mp hbefore
    obtain ⟨hard, back, rfl, hhard, -⟩ := List.map_eq_cons_iff.mp htail
    exact ⟨front, hard, back, subdag, hfront, Input.event.inj hhard, rfl⟩

/-- A chain of five of which only the third link, the leader, has a transaction. -/
def loadedLeader : List (List VerifiedBlock) := [[link 0, link 1], [loaded 2], [link 3], [link 4]]

/-- Its early commit is confirmable, and confirmed with the same transaction. -/
theorem run_confirmed_leader :
    let o := (ConsensusNode.new (fun _ => 0) (Committee.equal 0)).run (fun _ => 0) loadedLeader
    let outputs := (PipelineScheduler.new.run (o.events.map .event)).1
    outputs = [.batch ⟨3, 1, [⟨[2]⟩], true⟩, .decision (.commit 1 3)] ∧
      ∃ soft hard subdag, o.sent = [soft] ++ hard :: [] ∧ hard.event = .hardCommit subdag ∧
        Confirmable soft hard ∧ ∃ batch ∈ batches outputs, batch.round = 3 ∧ batch.txs = subdag.txs := by
  intro o outputs
  let subdag : OurCommittedSubDag := ⟨(loaded 2).reference, [link 0, link 1, loaded 2].map toSharedBlock, 0, 1⟩
  have hevents : o.events = [.softCommit 3 (loaded 2).reference [⟨[2]⟩], .hardCommit subdag] := by decide +kernel
  have houtputs : outputs = [.batch ⟨3, 1, [⟨[2]⟩], true⟩, .decision (.commit 1 3)] := by decide +kernel
  have hcarriers : o.sent.map carriers = [[loaded 2], [loaded 2]] := by decide +kernel
  obtain ⟨soft, hard, hsent⟩ := List.length_eq_two.mp ((List.length_map carriers).symm.trans (congrArg _ hcarriers))
  have hboth : o.events = [soft.event, hard.event] := congrArg (List.map Emission.event) hsent
  obtain ⟨hsoft, htail⟩ := List.cons.inj (hboth.symm.trans hevents)
  obtain ⟨hhard, -⟩ := List.cons.inj htail
  rw [hsent] at hcarriers
  obtain ⟨hfirst, htail⟩ := List.cons.inj hcarriers
  obtain ⟨hsecond, -⟩ := List.cons.inj htail
  have hconfirmable : Confirmable soft hard := by
    refine ⟨?_, fun slot => by rw [hfirst, hsecond]⟩
    rw [hfirst]
    exact List.pairwise_singleton ..
  refine ⟨houtputs, soft, hard, subdag, hsent, hhard, hconfirmable, ?_⟩
  obtain ⟨d, rest, hsplit, hanswer⟩ := (run_confirmed_iff (fun _ => 0) (Committee.equal 0) loadedLeader).1
    [soft] hard [] subdag hsent hhard
  have hfront : (PipelineScheduler.new.run ([soft].map fun e => .event e.event)).1 =
      [.batch ⟨3, 1, [⟨[2]⟩], true⟩] := by
    rw [List.map_singleton, hsoft]
    decide
  rw [hfront] at hsplit hanswer
  obtain ⟨-, htail⟩ := List.cons.inj (hsplit.symm.trans houtputs)
  obtain ⟨hd, -⟩ := List.cons.inj htail
  rcases hanswer with hfresh | ⟨-, batch, hbatch, hround, -, -, early, hlast, htxs, -⟩
  · rw [hfresh] at hd
    cases hd
  · have hearly : early = soft :=
      List.mem_singleton.mp (List.mem_filter.mp (List.mem_of_getLast? hlast)).1
    refine ⟨batch, ?_, hround, htxs (hearly ▸ hconfirmable)⟩
    rw [houtputs]
    exact hbatch

/-- If every link has one, the third link is executed early in the order of the walk, and
confirmed although it commits them in the other order. -/
theorem confirmed_out_of_order :
    let o := (ConsensusNode.new (fun _ => 0) (Committee.equal 0)).run (fun _ => 0)
      [[loaded 0], [loaded 1], [loaded 2], [loaded 3], [loaded 4]]
    (PipelineScheduler.new.run (o.events.map .event)).1 =
        [.batch ⟨3, 1, [⟨[2]⟩, ⟨[1]⟩, ⟨[0]⟩], true⟩, .decision (.commit 1 3)] ∧
      ∃ subdag, .hardCommit subdag ∈ o.events ∧ subdag.leader.round = 3 ∧
        subdag.txs = [⟨[0]⟩, ⟨[1]⟩, ⟨[2]⟩] := by
  refine ⟨by decide +kernel, ⟨(loaded 2).reference, [loaded 0, loaded 1, loaded 2].map toSharedBlock, 0, 1⟩, ?_⟩
  decide +kernel

end DualOptimistic.Scheduler
