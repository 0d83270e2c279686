import DualOptimistic.Scheduler.Backlog
import DualOptimistic.Scheduler.Pausing

/-! Whether anything waits while dispatch is open.

An early commit that leaves the scheduler running has the queue drained, and a final commit
takes entries away only. But a `Resume` of the executor opens dispatch without draining: what
came while it was paused goes on waiting for the next early commit. So nothing waits while
dispatch is open exactly if at every `Resume` the next round is not in the queue
(`dispatchOpen_iff`). -/
namespace DualOptimistic.Scheduler
open Data Consensus

/-- While the scheduler is not paused the next round to dispatch is not queued. -/
def NothingWaits (s : PipelineScheduler) : Prop :=
  s.backpressure.isPaused = false →
    ∀ txs, s.pending.entries.get? s.pending.nextDispatchRound ≠ some ⟨txs, .queued⟩

/-- After every input nothing waits while dispatch is open; in particular a `Resume` sends
everything that can be dispatched, in the order of rounds. -/
structure DispatchOpen (inputs : List Input) : Prop where
  nothing_waits : ∀ done, done <+: inputs → NothingWaits (PipelineScheduler.new.run done).2
  resumed : ∀ before after, inputs = before ++ .signal .resume :: after →
    batches ((PipelineScheduler.new.run before).2.step (.signal .resume)).1 =
      (PipelineScheduler.new.run before).2.pending.drainDispatchable.1.map PipelineScheduler.optimisticBatch

/-- Every early commit of the round that is next to dispatch was followed by the final commit of
that round. -/
def NextClosed (inputs : List Input) : Prop :=
  let next := (PipelineScheduler.new.run inputs).2.pending.nextDispatchRound
  ∀ before leader txs after, inputs = before ++ .event (.softCommit next leader txs) :: after →
    ∃ subdag, .event (.hardCommit subdag) ∈ after ∧ subdag.leader.round = next

/-! ### One turn -/

theorem nothingWaits_iff (s : PipelineScheduler) :
    NothingWaits s ↔ (s.backpressure.isPaused = false → s.pending.dispatch = none) := by
  rw [NothingWaits, PendingQueue.dispatch_eq_none]

/-- Every input but a `Resume` leaves nothing waiting while dispatch is open, and a `Resume` does
if nothing could be dispatched. -/
theorem NothingWaits.step {s : PipelineScheduler} (h : NothingWaits s) {input : Input}
    (hresume : input = .signal .resume → s.pending.dispatch = none) : NothingWaits (s.step input).2 := by
  rw [nothingWaits_iff] at h ⊢
  cases input with
  | signal signal =>
    cases signal with
    | slowDown => exact fun hpaused => (by cases hpaused)
    | resume => exact fun _ => hresume rfl
  | event event =>
    cases event with
    | softCommit round leader txs =>
      intro hopen
      have hopen : (s.handleSoftCommit round txs).2.backpressure.isPaused = false := hopen
      rw [isPaused_handleSoftCommit] at hopen
      show (s.handleSoftCommit round txs).2.pending.dispatch = none
      rw [(PipelineScheduler.handleSoftCommit_running hopen).2]
      exact PendingQueue.dispatch_drainDispatchable _
    | hardCommit subdag =>
      intro hopen
      have hbefore := PendingQueue.dispatch_eq_none.mp (h hopen)
      show (s.handleHardCommit subdag).2.pending.dispatch = none
      rw [(s.handleHardCommit_cases subdag).1, PendingQueue.dispatch_eq_none]
      intro txs hget
      dsimp only at hget
      rw [OrdMap.get?_erase] at hget
      split_ifs at hget
      exact hbefore txs hget

/-! ### Runs -/

/-- An entry of the next round is queued: what was sent is of rounds below. -/
theorem dispatch_run_eq_none (inputs : List Input) :
    (PipelineScheduler.new.run inputs).2.pending.dispatch = none ↔ NextClosed inputs := by
  have htracks := run_tracks inputs
  unfold NextClosed
  rw [← get?_run_eq_none]
  generalize (PipelineScheduler.new.run inputs).2.pending = q at htracks ⊢
  rw [PendingQueue.dispatch_eq_none]
  constructor
  · intro hqueued
    cases hget : q.entries.get? q.nextDispatchRound with
    | none => rfl
    | some entry =>
      obtain ⟨txs, status⟩ := entry
      cases status with
      | queued => exact absurd hget (hqueued txs)
      | dispatched => exact absurd (htracks.below (htracks.marked hget)).1 (Nat.lt_irrefl _)
  · intro hnone txs hget
    rw [hnone] at hget
    cases hget

/-- **Nothing waits while dispatch is open**, after every input of a run, exactly if whenever the
executor resumes, every early commit of the round next to dispatch had been followed by the final
commit of that round. -/
theorem dispatchOpen_iff (inputs : List Input) :
    DispatchOpen inputs ↔
      ∀ before after, inputs = before ++ .signal .resume :: after → NextClosed before := by
  constructor
  · intro h before after hsplit
    have hafter := h.nothing_waits (before ++ [.signal .resume]) ⟨after, by rw [hsplit]; simp⟩
    rw [PipelineScheduler.run_append, nothingWaits_iff] at hafter
    exact (dispatch_run_eq_none before).mp (hafter rfl)
  · intro h
    refine ⟨fun done hdone => ?_, fun before after hsplit => ?_⟩
    · induction done using List.reverseRecOn with
      | nil => exact fun _ txs hget => (by cases hget)
      | append_singleton done input ih =>
        rw [PipelineScheduler.run_append]
        apply (ih ((List.prefix_append ..).trans hdone)).step
        rintro rfl
        obtain ⟨after, hsplit⟩ := hdone
        rw [List.append_assoc, List.singleton_append] at hsplit
        exact (dispatch_run_eq_none done).mpr (h done after hsplit.symm)
    · rw [PendingQueue.drain_eq_nil ((dispatch_run_eq_none before).mpr (h before after hsplit))]
      rfl

/-- Seven rounds are dispatched and await their final commits when the executor slows down. The
early commit of round 24 finds eight entries in the queue, so it waits, and it still does when the
executor has resumed. -/
theorem resume_leaves_waiting :
    let rounds := [earlyCommit 3, earlyCommit 6, earlyCommit 9, earlyCommit 12, earlyCommit 15, earlyCommit 18,
      earlyCommit 21]
    let inputs := rounds.map .event ++ [.signal .slowDown, .event (earlyCommit 24), .signal .resume]
    let s := (PipelineScheduler.new.run inputs).2
    s.backpressure.isPaused = false ∧ s.pending.nextDispatchRound = 24 ∧
      s.pending.entries.get? 24 = some ⟨[], .queued⟩ ∧ ¬ DispatchOpen inputs := by
  intro rounds inputs s
  have hopen : s.backpressure.isPaused = false := by decide +kernel
  have hnext : s.pending.nextDispatchRound = 24 := by decide +kernel
  have hqueued : s.pending.entries.get? 24 = some ⟨[], .queued⟩ := by decide +kernel
  refine ⟨hopen, hnext, hqueued, fun h => ?_⟩
  exact h.nothing_waits inputs (List.prefix_refl _) hopen [] (hnext ▸ hqueued)

end DualOptimistic.Scheduler
