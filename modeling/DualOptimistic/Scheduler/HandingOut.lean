import DualOptimistic.Scheduler.Pipeline
import DualOptimistic.Scheduler.QueueRuns

/-! In which order rounds are handed out for execution.

A round is handed out early, as a batch to the executor, or late, as a fresh batch with its
final commit. What is handed out early goes up leader round by leader round, and a fresh batch
is of no round that was handed out before; but the queue does not move on with a final commit,
so an early commit that comes after the final commit of a later round is still handed out. What
was sent and what waits is `Handed`; a final commit keeps the rounds in order, and an early
commit does unless it dispatches behind a final one (`Handed.inOrder_soft`). -/
namespace DualOptimistic.Scheduler
open Data Consensus

/-- The round an output hands out for execution. -/
def Output.handsOut? : Output → Option Round
  | .batch b => some b.round
  | .decision (.freshBatch b) => some b.round
  | _ => none

/-- The rounds handed out, in the order of sending. -/
def handedOut (outputs : List Output) : List Round := outputs.filterMap Output.handsOut?

/-- The round a decision is about. -/
def Output.decides? : Output → Option Round
  | .decision (.commit _ round) => some round
  | .decision (.freshBatch b) => some b.round
  | _ => none

/-- A batch does not come after the decision of a later round. -/
def Output.MayPrecede (o later : Output) : Prop :=
  ∀ round batch, o.decides? = some round → later = .batch batch → round ≤ batch.round

/-- The rounds handed out go up, and no batch comes after the decision of a later round. -/
structure InOrder (outputs : List Output) : Prop where
  ascending : (handedOut outputs).Pairwise (· < ·)
  timely : outputs.Pairwise Output.MayPrecede

/-- The call of the queue an event makes. -/
def queueOp : ConsensusEvent → QueueOp
  | .softCommit round _ txs => .insert round txs
  | .hardCommit subdag => .hardCommit subdag.leader.round subdag.commitIndex

/-- Every round has one early commit at most and none after its final commit, and the final
commits are of leader rounds that go up. -/
structure Sequenced (events : List ConsensusEvent) : Prop where
  early : InsertsOnce (events.map queueOp)
  final : events.Pairwise fun e later => e.isSoft = false → later.isSoft = false → e.round < later.round
  leaders : ∀ e ∈ events, e.isSoft = false → ∃ w, e.round = 3 * (w + 1)

theorem Sequenced.of_append {events more : List ConsensusEvent} (h : Sequenced (events ++ more)) :
    Sequenced events where
  early := by
    have := h.early
    rw [List.map_append] at this
    exact this.of_append
  final := (List.pairwise_append.mp h.final).1
  leaders e he := h.leaders e (List.mem_append_left _ he)

/-- The final commits are of rounds below a further one. -/
theorem Sequenced.lower {events : List ConsensusEvent} {subdag : OurCommittedSubDag}
    (h : Sequenced (events ++ [.hardCommit subdag])) {e : ConsensusEvent} (he : e ∈ events)
    (hfinal : e.isSoft = false) : e.round < subdag.leader.round :=
  (List.pairwise_append.mp h.final).2.2 e he _ (List.mem_singleton_self _) hfinal rfl

/-- The early commit finds the scheduler running and the next round waiting in the queue. -/
def PipelineScheduler.DispatchesAt (s : PipelineScheduler) (round : Round) (txs : List EthSignedTx) : Prop :=
  s.pausedAt round txs = false ∧ (s.pending.insert round txs).dispatch ≠ none

theorem handedOut_append (l m : List Output) : handedOut (l ++ m) = handedOut l ++ handedOut m :=
  List.filterMap_append ..

/-- Without decisions, what is handed out are the batches. -/
theorem handedOut_eq_batches {outputs : List Output} (h : ∀ d, .decision d ∉ outputs) :
    handedOut outputs = (batches outputs).map TxBatch.round := by
  unfold handedOut batches
  rw [List.map_filterMap]
  refine List.filterMap_congr fun o ho => ?_
  cases o with
  | batch batch => rfl
  | decision d => exact absurd ho (h d)
  | signal signal => rfl

theorem inOrder_nil : InOrder [] := ⟨List.Pairwise.nil, List.Pairwise.nil⟩

/-- More outputs without decisions keep the order if they hand out later rounds than before. -/
theorem inOrder_append {outputs more : List Output} (h : ∀ d, .decision d ∉ more) :
    InOrder (outputs ++ more) ↔ InOrder outputs ∧ ((batches more).map TxBatch.round).Pairwise (· < ·) ∧
      (∀ r ∈ handedOut outputs, ∀ b ∈ batches more, r < b.round) ∧
      ∀ o ∈ outputs, ∀ r, o.decides? = some r → ∀ b ∈ batches more, r ≤ b.round := by
  have hbatch : ∀ {b}, .batch b ∈ more ↔ b ∈ batches more := by
    intro b
    unfold batches
    rw [List.mem_filterMap]
    constructor
    · intro hb
      exact ⟨_, hb, rfl⟩
    · intro hb
      obtain ⟨o, ho, hsome⟩ := hb
      cases o with
      | batch batch =>
        obtain rfl := Option.some.inj hsome
        exact ho
      | decision d => cases hsome
      | signal signal => cases hsome
  have hquiet : more.Pairwise Output.MayPrecede := by
    refine List.pairwise_of_forall_mem_list fun o ho later _ round batch hround => ?_
    cases o with
    | batch batch => cases hround
    | decision d => exact absurd ho (h d)
    | signal signal => cases hround
  constructor
  · intro horder
    have hasc := horder.ascending
    rw [handedOut_append, handedOut_eq_batches h] at hasc
    obtain ⟨hold, hmore, hcross⟩ := List.pairwise_append.mp hasc
    obtain ⟨holdt, -, hcrosst⟩ := List.pairwise_append.mp horder.timely
    refine ⟨⟨hold, holdt⟩, hmore, fun r hr b hb => ?_, fun o ho r hr b hb => ?_⟩
    · exact hcross r hr b.round (List.mem_map_of_mem hb)
    · exact hcrosst o ho _ (hbatch.mpr hb) r b hr rfl
  · intro horder
    obtain ⟨hold, hmore, hcross, hlate⟩ := horder
    constructor
    · rw [handedOut_append, handedOut_eq_batches h]
      refine List.pairwise_append.mpr ⟨hold.ascending, hmore, fun r hr r' hr' => ?_⟩
      obtain ⟨b, hb, rfl⟩ := List.mem_map.mp hr'
      exact hcross r hr b hb
    · refine List.pairwise_append.mpr ⟨hold.timely, hquiet, fun o ho later hlater r b hr hb => ?_⟩
      subst hb
      exact hlate o ho r hr b (hbatch.mp hlater)

/-! ### One event -/

theorem PipelineScheduler.map_round_optimisticBatch (out : List (Round × List EthSignedTx)) :
    (out.map optimisticBatch).map TxBatch.round = out.map Prod.fst := by
  rw [List.map_map]
  rfl

/-- What an early commit sends, and what that leaves in the queue. Something is sent exactly if
the next round is dispatched, and then that comes first. -/
theorem PipelineScheduler.sent_soft (s : PipelineScheduler) (round : Round) (txs : List EthSignedTx) :
    let inserted := s.pending.insert round txs
    let after := s.handleSoftCommit round txs
    ∃ out, batches after.1 = out.map optimisticBatch ∧ PendingQueue.Advanced inserted out after.2.pending ∧
      (inserted.nextDispatchRound ∈ out.map Prod.fst ↔ s.DispatchesAt round txs) ∧
      ∀ {ops drained}, Accounts ops drained inserted → Accounts ops (drained ++ out) after.2.pending := by
  intro inserted after
  cases hpaused : s.pausedAt round txs with
  | true =>
    obtain ⟨hbatches, hpending⟩ := handleSoftCommit_paused hpaused
    have hpending : after.2.pending = inserted := hpending
    refine ⟨[], hbatches, ?_, iff_of_false List.not_mem_nil fun hd => ?_, fun hq => ?_⟩
    · rw [hpending]
      exact .refl inserted
    · rw [DispatchesAt, hpaused] at hd
      cases hd.1
    · rwa [List.append_nil, hpending]
  | false =>
    obtain ⟨hbatches, hpending⟩ := handleSoftCommit_running hpaused
    have hpending : after.2.pending = inserted.drainDispatchable.2 := hpending
    refine ⟨inserted.drainDispatchable.1, hbatches, ?_, ?_, fun hq => ?_⟩
    · rw [hpending]
      exact inserted.advanced_drain
    · constructor
      · intro hnext
        refine ⟨hpaused, fun hnone => ?_⟩
        rw [PendingQueue.drain_eq_nil hnone] at hnext
        exact absurd hnext List.not_mem_nil
      · exact fun hd => PendingQueue.next_mem_drain hd.2
    · rw [hpending]
      exact hq.drainAll

/-- What was sent and what waits, after the events. -/
structure Handed (events : List ConsensusEvent) (outputs : List Output) (q : PendingQueue) : Prop where
  accounts : ∃ drained, batches outputs = drained.map PipelineScheduler.optimisticBatch ∧
    Accounts (events.map queueOp) drained q
  /-- What is handed out is below the next round, or has its final commit. -/
  out : ∀ r ∈ handedOut outputs, r < q.nextDispatchRound ∨ ∃ e ∈ events, e.isSoft = false ∧ e.round = r
  decided : ∀ o ∈ outputs, ∀ r, o.decides? = some r → ∃ e ∈ events, e.isSoft = false ∧ e.round = r
  /-- A final commit is of a round below the next, or was handed out. -/
  final : ∀ e ∈ events, e.isSoft = false → e.round ∈ handedOut outputs ∨ e.round < q.nextDispatchRound

namespace Handed
variable {events : List ConsensusEvent} {outputs : List Output} {q : PendingQueue}

theorem new : Handed [] [] PipelineScheduler.new.pending where
  accounts := ⟨[], rfl, accounts_new _⟩
  out _ hr := absurd hr List.not_mem_nil
  decided _ ho := absurd ho List.not_mem_nil
  final _ he := absurd he List.not_mem_nil

/-- Outputs without decisions, and the queue drained on. -/
theorem append (h : Handed events outputs q) {e : ConsensusEvent} (he : e.isSoft = true) {q' : PendingQueue}
    {more : List Output} (hmore : ∀ d, .decision d ∉ more) {out : List (Round × List EthSignedTx)}
    (hbatches : batches more = out.map PipelineScheduler.optimisticBatch)
    (hnext : q.nextDispatchRound ≤ q'.nextDispatchRound)
    (hbelow : ∀ item ∈ out, item.1 < q'.nextDispatchRound)
    (haccounts : ∀ {drained}, Accounts (events.map queueOp) drained q →
      Accounts ((events ++ [e]).map queueOp) (drained ++ out) q') :
    Handed (events ++ [e]) (outputs ++ more) q' := by
  have hlift : ∀ {r}, (∃ e ∈ events, e.isSoft = false ∧ e.round = r) →
      ∃ e' ∈ events ++ [e], e'.isSoft = false ∧ e'.round = r := by
    intro r h
    obtain ⟨e', he', hfinal⟩ := h
    exact ⟨e', List.mem_append_left _ he', hfinal⟩
  refine ⟨?_, fun r hr => ?_, fun o ho r hr => ?_, fun e' he' hfinal => ?_⟩
  · obtain ⟨drained, hdrained, hq⟩ := h.accounts
    refine ⟨drained ++ out, ?_, haccounts hq⟩
    rw [batches_append, hdrained, hbatches, List.map_append]
  · rw [handedOut_append, handedOut_eq_batches hmore, hbatches] at hr
    rcases List.mem_append.mp hr with hr | hr
    · exact (h.out r hr).imp (fun hlt => hlt.trans_le hnext) hlift
    · rw [PipelineScheduler.map_round_optimisticBatch] at hr
      obtain ⟨item, hitem, rfl⟩ := List.mem_map.mp hr
      exact .inl (hbelow item hitem)
  · rcases List.mem_append.mp ho with ho | ho
    · exact hlift (h.decided o ho r hr)
    · cases o with
      | batch b => cases hr
      | decision d => exact absurd ho (hmore d)
      | signal signal => cases hr
  · rcases List.mem_append.mp he' with he' | he'
    · rw [handedOut_append]
      exact (h.final e' he' hfinal).imp (List.mem_append_left _) fun hlt => hlt.trans_le hnext
    · rw [List.mem_singleton.mp he', he] at hfinal
      cases hfinal

theorem afterSoft {s : PipelineScheduler} (h : Handed events outputs s.pending) {round : Round} {leader : BlockRef}
    {txs : List EthSignedTx}
    (honce : InsertsOnce ((events ++ [ConsensusEvent.softCommit round leader txs]).map queueOp)) :
    Handed (events ++ [.softCommit round leader txs]) (outputs ++ (s.handleSoftCommit round txs).1)
      (s.handleSoftCommit round txs).2.pending := by
  obtain ⟨out, hbatches, hadv, -, haccounts⟩ := s.sent_soft round txs
  refine h.append rfl (fun d => PipelineScheduler.decision_not_mem_soft) hbatches ?_ (fun item hitem => ?_)
    fun hq => haccounts ?_
  · rw [hadv.next]
    exact Nat.le_add_right ..
  · exact (hadv.ascending.2 item hitem).2
  · rw [List.map_append] at honce ⊢
    exact hq.insert honce

/-- **An early commit** keeps the order, unless it dispatches behind a final commit. -/
theorem inOrder_soft {s : PipelineScheduler} (h : Handed events outputs s.pending) {round : Round}
    {txs : List EthSignedTx} :
    InOrder (outputs ++ (s.handleSoftCommit round txs).1) ↔ InOrder outputs ∧ (s.DispatchesAt round txs →
      ∀ e ∈ events, e.isSoft = false → e.round < s.pending.nextDispatchRound) := by
  obtain ⟨out, hbatches, hadv, hdispatches, -⟩ := s.sent_soft round txs
  have hrounds : (batches (s.handleSoftCommit round txs).1).map TxBatch.round = out.map Prod.fst := by
    rw [hbatches, PipelineScheduler.map_round_optimisticBatch]
  have hfrom : ∀ b ∈ batches (s.handleSoftCommit round txs).1,
      s.DispatchesAt round txs ∧ s.pending.nextDispatchRound ≤ b.round := by
    intro b hb
    rw [hbatches] at hb
    obtain ⟨item, hitem, rfl⟩ := List.mem_map.mp hb
    exact ⟨hdispatches.mp (hadv.next_mem hitem), (hadv.ascending.2 item hitem).1⟩
  rw [inOrder_append fun d => PipelineScheduler.decision_not_mem_soft]
  refine and_congr_right fun _ => ⟨fun hmore hd e he hfinal => ?_, fun hcond => ?_⟩
  · -- the first batch is of the next round
    have hfirst := hdispatches.mpr hd
    rw [← hrounds] at hfirst
    obtain ⟨b, hb, hround⟩ := List.mem_map.mp hfirst
    rcases h.final e he hfinal with hout | hlt
    · have hlt := hmore.2.1 e.round hout b hb
      rwa [hround] at hlt
    · exact hlt
  · rw [hrounds]
    have hbehind : ∀ e ∈ events, e.isSoft = false → ∀ b ∈ batches (s.handleSoftCommit round txs).1,
        e.round < b.round :=
      fun e he hfinal b hb => (hcond (hfrom b hb).1 e he hfinal).trans_le (hfrom b hb).2
    refine ⟨hadv.ascending.1, fun r hr b hb => ?_, fun o ho r hr b hb => ?_⟩
    · rcases h.out r hr with hlt | ⟨e, he, hfinal, rfl⟩
      · exact hlt.trans_le (hfrom b hb).2
      · exact hbehind e he hfinal b hb
    · obtain ⟨e, he, hfinal, rfl⟩ := h.decided o ho r hr
      exact (hbehind e he hfinal b hb).le

/-- A final commit is confirmed below the next round, and handed out from there on. -/
theorem answer {s : PipelineScheduler} (h : Handed events outputs s.pending) {subdag : OurCommittedSubDag}
    (hseq : Sequenced (events ++ [.hardCommit subdag])) :
    let d := (s.handleHardCommit subdag).1
    subdag.leader.round < s.pending.nextDispatchRound ∧ handedOut [.decision d] = [] ∨
      s.pending.nextDispatchRound ≤ subdag.leader.round ∧ handedOut [.decision d] = [subdag.leader.round] := by
  intro d
  obtain ⟨drained, -, hq⟩ := h.accounts
  have hopen : ∀ i, .hardCommit subdag.leader.round i ∉ events.map queueOp := by
    intro i hi
    obtain ⟨e, he, hop⟩ := List.mem_map.mp hi
    cases e with
    | softCommit round leader txs => cases hop
    | hardCommit subdag' =>
      exact absurd (QueueOp.hardCommit.inj hop).1 (Nat.ne_of_lt (hseq.lower he rfl))
  obtain ⟨hcommit, hfresh⟩ := hq.decision subdag.leader.round subdag.commitIndex
  by_cases hmem : subdag.leader.round ∈ drained.map Prod.fst
  · have hd : d = .commit subdag.commitIndex subdag.leader.round := by
      unfold d PipelineScheduler.handleHardCommit
      dsimp only
      rw [hcommit.mpr ⟨hmem, hopen⟩]
    rw [hd]
    exact .inl ⟨hq.below hmem, rfl⟩
  · have hd : d = .freshBatch ⟨subdag.leader.round, subdag.commitIndex, subdag.txs, false⟩ := by
      unfold d PipelineScheduler.handleHardCommit
      dsimp only
      rw [hfresh fun heq => hmem (hcommit.mp heq).1]
    rw [hd]
    refine .inr ⟨?_, rfl⟩
    -- every leader round below the next was drained
    obtain ⟨w, hw⟩ := hseq.leaders _ (List.mem_append_right _ (List.mem_singleton_self _)) rfl
    obtain ⟨k, hrounds, hk⟩ := hq.rounds
    have hw : subdag.leader.round = 3 * (w + 1) := hw
    rw [hrounds, hw] at hmem
    rw [hk, hw]
    refine Nat.mul_le_mul_left 3 (Nat.add_le_add_right (Nat.le_of_not_lt fun hlt => hmem ?_) 1)
    exact List.mem_map.mpr ⟨w, List.mem_range.mpr hlt, rfl⟩

theorem decides?_decision (s : PipelineScheduler) (subdag : OurCommittedSubDag) :
    (Output.decision (s.handleHardCommit subdag).1).decides? = some subdag.leader.round := by
  rcases (s.handleHardCommit_cases subdag).2 with hfresh | ⟨hcommit, -⟩
  · exact congrArg (fun d => (Output.decision d).decides?) hfresh
  · exact congrArg (fun d => (Output.decision d).decides?) hcommit

theorem afterHard {s : PipelineScheduler} (h : Handed events outputs s.pending) {subdag : OurCommittedSubDag}
    (hseq : Sequenced (events ++ [.hardCommit subdag])) :
    let after := s.handleHardCommit subdag
    Handed (events ++ [.hardCommit subdag]) (outputs ++ [.decision after.1]) after.2.pending := by
  intro after
  obtain ⟨drained, hdrained, hq⟩ := h.accounts
  have hnext : after.2.pending.nextDispatchRound = s.pending.nextDispatchRound := by
    rw [(s.handleHardCommit_cases subdag).1]
  have hlast : ConsensusEvent.hardCommit subdag ∈ events ++ [.hardCommit subdag] :=
    List.mem_append_right _ (List.mem_singleton_self _)
  have hmem : ∀ {r}, (∃ e ∈ events, e.isSoft = false ∧ e.round = r) →
      ∃ e ∈ events ++ [.hardCommit subdag], e.isSoft = false ∧ e.round = r := by
    intro r hr
    obtain ⟨e, he, hfinal⟩ := hr
    exact ⟨e, List.mem_append_left _ he, hfinal⟩
  refine ⟨⟨drained, ?_, ?_⟩, fun r hr => ?_, fun o ho r hr => ?_, fun e he hfinal => ?_⟩
  · rw [batches_append, hdrained]
    exact List.append_nil _
  · rw [List.map_append]
    exact hq.hardCommit _ _
  · rw [handedOut_append] at hr
    rw [hnext]
    rcases List.mem_append.mp hr with hr | hr
    · exact (h.out r hr).imp id hmem
    · rcases h.answer hseq with ⟨-, hnone⟩ | ⟨-, hone⟩
      · rw [hnone] at hr
        exact absurd hr List.not_mem_nil
      · rw [hone] at hr
        exact .inr ⟨_, hlast, rfl, (List.mem_singleton.mp hr).symm⟩
  · rcases List.mem_append.mp ho with ho | ho
    · exact hmem (h.decided o ho r hr)
    · rw [List.mem_singleton.mp ho, decides?_decision] at hr
      exact ⟨_, hlast, rfl, Option.some.inj hr⟩
  · rw [handedOut_append, hnext]
    rcases List.mem_append.mp he with he | he
    · exact (h.final e he hfinal).imp (List.mem_append_left _) id
    · rw [List.mem_singleton.mp he]
      rcases h.answer hseq with ⟨hlt, -⟩ | ⟨-, hone⟩
      · exact .inr hlt
      · rw [hone]
        exact .inl (List.mem_append_right _ (List.mem_singleton_self _))

/-- **A final commit** keeps the order: it is confirmed, or of a later round than all before. -/
theorem inOrder_hard {s : PipelineScheduler} (h : Handed events outputs s.pending)
    {subdag : OurCommittedSubDag} (hseq : Sequenced (events ++ [.hardCommit subdag])) :
    InOrder (outputs ++ [.decision (s.handleHardCommit subdag).1]) ↔ InOrder outputs := by
  constructor
  · intro hin
    have hascending := hin.ascending
    rw [handedOut_append] at hascending
    exact ⟨(List.pairwise_append.mp hascending).1, (List.pairwise_append.mp hin.timely).1⟩
  · intro hin
    constructor
    · rw [handedOut_append]
      refine List.pairwise_append.mpr ⟨hin.ascending, ?_, fun r hr r' hr' => ?_⟩
      · rcases h.answer hseq with ⟨-, hnone⟩ | ⟨-, hone⟩
        · rw [hnone]
          exact List.Pairwise.nil
        · rw [hone]
          exact List.pairwise_singleton _ _
      · rcases h.answer hseq with ⟨-, hnone⟩ | ⟨hge, hone⟩
        · rw [hnone] at hr'
          exact absurd hr' List.not_mem_nil
        · rw [hone] at hr'
          rw [List.mem_singleton.mp hr']
          rcases h.out r hr with hlt | ⟨e, he, hfinal, rfl⟩
          · exact hlt.trans_le hge
          · exact hseq.lower he hfinal
    · refine List.pairwise_append.mpr ⟨hin.timely, List.pairwise_singleton _ _, ?_⟩
      intro o _ later hlater r b _ hb
      rw [hb] at hlater
      cases List.mem_singleton.mp hlater

end Handed

/-- An early commit and a final commit of a round, without transactions. -/
def earlyCommit (round : Round) (h : round < u32Size := by decide) : ConsensusEvent :=
  .softCommit round ⟨round, 0, 0, h⟩ []

def finalCommit (round : Round) (commitIndex : Nat) (h : round < u32Size := by decide) : ConsensusEvent :=
  .hardCommit ⟨⟨round, 0, 0, h⟩, [], 0, commitIndex⟩

end DualOptimistic.Scheduler
