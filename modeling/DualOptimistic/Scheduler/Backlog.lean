import DualOptimistic.Scheduler.HandingOut

/-! What a final commit leaves in the queue.

An entry leaves the queue with the final commit of its own round only, and the next round to
dispatch moves with early commits only. So after a final commit the queue holds nothing up to
its round, and goes on above it, exactly if no early commit of a round below is still open and
the queue was drained past the round before (`run_unclogged_iff`): a leader that is skipped
stays in the way for good. -/
namespace DualOptimistic.Scheduler
open Data Consensus

/-- Nothing up to the round is in the queue, and the queue goes on above it. -/
structure Unclogged (q : PendingQueue) (round : Round) : Prop where
  empty : ∀ r ≤ round, q.entries.get? r = none
  ahead : round < q.nextDispatchRound

/-- Every early commit of a round below was followed by the final commit of its round. -/
def Closed (inputs : List Input) (target : Round) : Prop :=
  ∀ before round leader txs after, inputs = before ++ .event (.softCommit round leader txs) :: after →
    round < target → ∃ subdag, .event (.hardCommit subdag) ∈ after ∧ subdag.leader.round = round

/-- The early commit finds the scheduler running, and all leader rounds from the next one up to
the target waiting. -/
def PipelineScheduler.CatchesUp (s : PipelineScheduler) (round : Round) (txs : List EthSignedTx)
    (target : Round) : Prop :=
  s.pausedAt round txs = false ∧ ∀ j, s.pending.nextDispatchRound + 3 * j ≤ target →
    ∃ txs', (s.pending.insert round txs).entries.get? (s.pending.nextDispatchRound + 3 * j) =
      some ⟨txs', .queued⟩

/-- Some early commit caught up with the target. -/
def CaughtUp (inputs : List Input) (target : Round) : Prop :=
  target < PipelineScheduler.firstLeaderRound ∨ ∃ before round leader txs after,
    inputs = before ++ .event (.softCommit round leader txs) :: after ∧
      (PipelineScheduler.new.run before).2.CatchesUp round txs target

/-! ### Entries -/

/-- An entry is in the queue if its round is committed early, until it is committed finally. -/
theorem get?_step_eq_none (s : PipelineScheduler) (input : Input) (r : Round) :
    (s.step input).2.pending.entries.get? r = none ↔
      (∃ subdag, input = .event (.hardCommit subdag) ∧ subdag.leader.round = r) ∨
        s.pending.entries.get? r = none ∧ ¬ ∃ leader txs, input = .event (.softCommit r leader txs) := by
  cases input with
  | signal signal => simp [PipelineScheduler.step]
  | event event =>
    cases event with
    | softCommit round leader txs =>
      have hkeys : (s.handleSoftCommit round txs).2.pending.entries.contains r =
          (s.pending.insert round txs).entries.contains r := by
        rcases s.handleSoftCommit_cases round txs with ⟨-, hpending⟩ | ⟨-, hpending⟩
        · rw [hpending]
        · rw [hpending]
          exact (PendingQueue.handedOut_drain _ _).keys r
      have hnone : (s.handleSoftCommit round txs).2.pending.entries.get? r = none ↔
          (s.pending.insert round txs).entries.get? r = none := by
        rw [← Option.isNone_iff_eq_none, ← Option.isNone_iff_eq_none, ← Option.not_isSome, ← Option.not_isSome]
        exact iff_of_eq (congrArg (fun b => (!b) = true) hkeys)
      show (s.handleSoftCommit round txs).2.pending.entries.get? r = none ↔ _
      rw [hnone, PendingQueue.insert, OrdMap.get?_insert]
      by_cases hr : r = round
      · simp [hr]
      · simp [hr, Ne.symm hr]
    | hardCommit subdag =>
      show (s.handleHardCommit subdag).2.pending.entries.get? r = none ↔ _
      rw [(s.handleHardCommit_cases subdag).1, OrdMap.get?_erase]
      by_cases hr : r = subdag.leader.round
      · simp [hr]
      · simp [hr, Ne.symm hr]

theorem get?_run_eq_none (inputs : List Input) (r : Round) :
    (PipelineScheduler.new.run inputs).2.pending.entries.get? r = none ↔
      ∀ before leader txs after, inputs = before ++ .event (.softCommit r leader txs) :: after →
        ∃ subdag, .event (.hardCommit subdag) ∈ after ∧ subdag.leader.round = r := by
  have hflag := @Machine.flag_run_iff _ _ _ PipelineScheduler.machine .new
    (fun s => s.pending.entries.get? r = none)
    (fun _ input => ∃ subdag, input = .event (.hardCommit subdag) ∧ subdag.leader.round = r)
    (fun _ input => ∃ leader txs, input = .event (.softCommit r leader txs))
    (fun s input => get?_step_eq_none s input r) ?_ rfl inputs
  · rw [← PipelineScheduler.machine_run, hflag]
    constructor
    · intro h before leader txs after hsplit
      obtain ⟨mid, j, rest, rfl, subdag, rfl, hround⟩ := h before _ after hsplit ⟨leader, txs, rfl⟩
      exact ⟨subdag, List.mem_append_right _ (List.mem_cons_self ..), hround⟩
    · intro h before i after hsplit hsoft
      obtain ⟨leader, txs, rfl⟩ := hsoft
      obtain ⟨subdag, hmem, hround⟩ := h before leader txs after hsplit
      obtain ⟨mid, rest, rfl⟩ := List.append_of_mem hmem
      exact ⟨mid, _, rest, rfl, subdag, rfl, hround⟩
  · intro s input hhard hsoft
    obtain ⟨subdag, rfl, -⟩ := hhard
    obtain ⟨leader, txs, hsoft⟩ := hsoft
    cases hsoft

/-! ### The next round -/

/-- The next round moves past the target with an early commit that catches up. -/
theorem lt_next_step_iff (s : PipelineScheduler) (input : Input) (target : Round) :
    target < (s.step input).2.pending.nextDispatchRound ↔ target < s.pending.nextDispatchRound ∨
      ∃ round leader txs, input = .event (.softCommit round leader txs) ∧ s.CatchesUp round txs target := by
  cases input with
  | signal signal => simp [PipelineScheduler.step]
  | event event =>
    cases event with
    | softCommit round leader txs =>
      have hone : (∃ round' leader' txs', Input.event (.softCommit round leader txs) =
          .event (.softCommit round' leader' txs') ∧ s.CatchesUp round' txs' target) ↔
          s.CatchesUp round txs target := by
        constructor
        · intro h
          obtain ⟨round', leader', txs', heq, hcatch⟩ := h
          obtain ⟨rfl, rfl, rfl⟩ := ConsensusEvent.softCommit.inj (Input.event.inj heq)
          exact hcatch
        · intro hcatch
          exact ⟨round, leader, txs, rfl, hcatch⟩
      show target < (s.handleSoftCommit round txs).2.pending.nextDispatchRound ↔ _
      rw [hone, PipelineScheduler.CatchesUp]
      cases hpaused : s.pausedAt round txs with
      | true =>
        rw [(PipelineScheduler.handleSoftCommit_paused hpaused).2]
        simp [PendingQueue.insert]
      | false =>
        rw [(PipelineScheduler.handleSoftCommit_running hpaused).2, PendingQueue.lt_next_drain_iff]
        exact or_congr_right ⟨fun h => ⟨rfl, h⟩, fun h => h.2⟩
    | hardCommit subdag =>
      show target < (s.handleHardCommit subdag).2.pending.nextDispatchRound ↔ _
      rw [(s.handleHardCommit_cases subdag).1]
      simp

theorem lt_next_run_iff (inputs : List Input) (target : Round) :
    target < (PipelineScheduler.new.run inputs).2.pending.nextDispatchRound ↔ CaughtUp inputs target := by
  induction inputs using List.reverseRecOn with
  | nil =>
    refine ⟨.inl, fun h => ?_⟩
    rcases h with hlt | ⟨before, round, leader, txs, after, hsplit, -⟩
    · exact hlt
    · exact absurd hsplit.symm (List.append_ne_nil_of_right_ne_nil _ (List.cons_ne_nil _ _))
  | append_singleton inputs input ih =>
    rw [PipelineScheduler.run_append]
    show target < ((PipelineScheduler.new.run inputs).2.step input).2.pending.nextDispatchRound ↔ _
    rw [lt_next_step_iff, ih, CaughtUp, CaughtUp, or_assoc]
    refine or_congr_right ⟨fun h => ?_, fun h => ?_⟩
    · rcases h with ⟨before, round, leader, txs, after, rfl, hcatch⟩ | ⟨round, leader, txs, rfl, hcatch⟩
      · exact ⟨before, round, leader, txs, after ++ [input], by rw [List.append_assoc, List.cons_append], hcatch⟩
      · exact ⟨inputs, round, leader, txs, [], rfl, hcatch⟩
    · obtain ⟨before, round, leader, txs, after, hsplit, hcatch⟩ := h
      rcases concat_eq_split.mp hsplit with ⟨rfl, rfl, rfl⟩ | ⟨mid, rfl, rfl⟩
      · exact .inr ⟨round, leader, txs, rfl, hcatch⟩
      · exact .inl ⟨before, round, leader, txs, mid, rfl, hcatch⟩

/-- The leader rounds below the next round, and no others, were sent early. -/
theorem run_rounds (inputs : List Input) :
    let ran := PipelineScheduler.new.run inputs
    ∃ k, (batches ran.1).map TxBatch.round = (List.range k).map (fun j => 3 * (j + 1)) ∧
      ran.2.pending.nextDispatchRound = 3 * (k + 1) := by
  induction inputs using List.reverseRecOn with
  | nil => exact ⟨0, rfl, rfl⟩
  | append_singleton inputs input ih =>
    obtain ⟨k, hrounds, hnext⟩ := ih
    rw [PipelineScheduler.run_append]
    generalize PipelineScheduler.new.run inputs = ran at hrounds hnext ⊢
    obtain ⟨sent, s⟩ := ran
    show ∃ k, (batches (sent ++ ((s.step input).1 ++ []))).map TxBatch.round = _ ∧
      (s.step input).2.pending.nextDispatchRound = _
    rw [List.append_nil, batches_append, List.map_append, hrounds]
    cases input with
    | signal signal => exact ⟨k, List.append_nil _, hnext⟩
    | event event =>
      cases event with
      | hardCommit subdag =>
        refine ⟨k, List.append_nil _, ?_⟩
        show (s.handleHardCommit subdag).2.pending.nextDispatchRound = _
        rw [(s.handleHardCommit_cases subdag).1]
        exact hnext
      | softCommit round leader txs =>
        show ∃ k', _ ++ (batches (s.handleSoftCommit round txs).1).map TxBatch.round = _ ∧
          (s.handleSoftCommit round txs).2.pending.nextDispatchRound = _
        obtain ⟨out, hbatches, hadv, -, -⟩ := s.sent_soft round txs
        have hstart : (s.pending.insert round txs).nextDispatchRound = 3 * (k + 1) := hnext
        refine ⟨k + out.length, ?_, ?_⟩
        · rw [hbatches, PipelineScheduler.map_round_optimisticBatch, hadv.rounds, List.range_add, List.map_append,
            List.map_map, hstart]
          refine congrArg _ (List.map_congr_left fun j _ => ?_)
          show 3 * (k + 1) + 3 * j = 3 * (k + j + 1)
          omega
        · rw [hadv.next, hstart]
          show 3 * (k + 1) + 3 * _ = 3 * (k + _ + 1)
          omega

/-! ### After a final commit -/

/-- **Skipped leaders stay in the way.** After a final commit the queue holds no entry up to its
round and goes on above it, exactly if every early commit of a lower round was closed by its own
final commit and an early commit before had caught up with the round; and then the next leader
round is either the next to dispatch or was sent already. -/
theorem run_unclogged_iff (inputs : List Input) (subdag : OurCommittedSubDag) :
    let ran := PipelineScheduler.new.run inputs
    let after := (ran.2.handleHardCommit subdag).2.pending
    let round := subdag.leader.round
    (Unclogged after round ↔ Closed inputs round ∧ CaughtUp inputs round) ∧
      (Unclogged after round → after.nextDispatchRound = 3 * (round / 3 + 1) ∨
        ∃ b ∈ batches ran.1, b.round = 3 * (round / 3 + 1)) := by
  intro ran after round
  have hafter : after = { ran.2.pending with entries := ran.2.pending.entries.erase round } :=
    (ran.2.handleHardCommit_cases subdag).1
  constructor
  · rw [hafter]
    have hempty : (∀ r ≤ round, (ran.2.pending.entries.erase round).get? r = none) ↔ Closed inputs round := by
      constructor
      · intro h before r leader txs after hsplit hlt
        have hnone := h r (Nat.le_of_lt hlt)
        rw [OrdMap.get?_erase, if_neg (Nat.ne_of_lt hlt)] at hnone
        exact (get?_run_eq_none inputs r).mp hnone before leader txs after hsplit
      · intro h r hle
        rw [OrdMap.get?_erase]
        split_ifs with hr
        · rfl
        · refine (get?_run_eq_none inputs r).mpr fun before leader txs after hsplit => ?_
          exact h before r leader txs after hsplit (Nat.lt_of_le_of_ne hle hr)
    constructor
    · intro h
      exact ⟨hempty.mp h.empty, (lt_next_run_iff inputs round).mp h.ahead⟩
    · intro h
      exact ⟨hempty.mpr h.1, (lt_next_run_iff inputs round).mpr h.2⟩
  · intro h
    obtain ⟨k, hrounds, hnext⟩ := run_rounds inputs
    have hahead := h.ahead
    rw [hafter] at hahead ⊢
    rcases Nat.lt_or_ge (round / 3) k with hlt | hge
    · refine .inr (List.mem_map.mp ?_)
      rw [show (batches ran.1).map TxBatch.round = _ from hrounds]
      exact List.mem_map.mpr ⟨round / 3, List.mem_range.mpr hlt, rfl⟩
    · refine .inl ?_
      have harith : ∀ k r : Nat, r < 3 * (k + 1) → k ≤ r / 3 → 3 * (k + 1) = 3 * (r / 3 + 1) := by omega
      rw [show ran.2.pending.nextDispatchRound = _ from hnext] at hahead ⊢
      exact harith k round hahead hge

/-- Round 3 is skipped: it stays in the queue for good, or, if it had no early commit, the queue
never goes on. -/
theorem skipped_leader_clogs :
    let skipped := PipelineScheduler.new.run
      ([earlyCommit 3, earlyCommit 6, finalCommit 6 1].map .event)
    let missed := PipelineScheduler.new.run ([earlyCommit 6, finalCommit 6 1].map .event)
    skipped.2.pending.entries.contains 3 = true ∧ ¬ Unclogged skipped.2.pending 6 ∧
      missed.2.pending.nextDispatchRound = 3 ∧ ¬ Unclogged missed.2.pending 6 := by
  intro skipped missed
  have hstays : skipped.2.pending.entries.contains 3 = true := by decide +kernel
  have hnext : missed.2.pending.nextDispatchRound = 3 := by decide +kernel
  refine ⟨hstays, fun h => ?_, hnext, fun h => ?_⟩
  · rw [OrdMap.contains, h.empty 3 (by decide)] at hstays
    cases hstays
  · have hahead := h.ahead
    rw [hnext] at hahead
    exact absurd hahead (by decide)

end DualOptimistic.Scheduler
