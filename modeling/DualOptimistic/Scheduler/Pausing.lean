import DualOptimistic.Scheduler.HandingOut

/-! When the scheduler is paused.

One flag is kept for two controllers: the executor's signals, and the depth of the queue, which
every early commit checks. The flag is as the last of them left it, so an early commit that
finds the queue short lifts the executor's `SlowDown` (`pausedAt_iff`). No batch is sent after a
`SlowDown` exactly if every such early commit is itself revoked before something waits to be
dispatched (`run_slowDown_iff`). -/
namespace DualOptimistic.Scheduler
open Data Consensus

/-- The input lets the scheduler run: by the executor's word, or because the queue is short. -/
def Input.Releases (s : PipelineScheduler) : Input → Prop
  | .signal given => given = .resume
  | .event (.softCommit round _ txs) =>
    (s.pending.insert round txs).depth < s.backpressure.threshold / 2
  | .event (.hardCommit _) => False

/-- The input stops the scheduler: by the executor's word, or because the queue is long. -/
def Input.Stops (s : PipelineScheduler) : Input → Prop
  | .signal given => given = .slowDown
  | .event (.softCommit round _ txs) => s.backpressure.threshold < (s.pending.insert round txs).depth
  | .event (.hardCommit _) => False

/-- What releases the scheduler among the inputs is followed by what stops it. -/
def Revoked (s : PipelineScheduler) (inputs : List Input) : Prop :=
  ∀ before input after, inputs = before ++ input :: after → input.Releases (s.run before).2 →
    ∃ mid stop rest, after = mid ++ stop :: rest ∧ stop.Stops (s.run (before ++ input :: mid)).2

/-- Whenever an early commit leaves the next round waiting, every release up to it is revoked. -/
def HeldBack (s : PipelineScheduler) (inputs : List Input) : Prop :=
  ∀ before round leader txs after, inputs = before ++ .event (.softCommit round leader txs) :: after →
    ((s.run before).2.pending.insert round txs).dispatch ≠ none →
    Revoked s (before ++ [.event (.softCommit round leader txs)])

/-! ### The flag -/

theorem isPaused_check (b : BackpressureController) (depth : Nat) :
    (b.check depth).2.isPaused = true ↔
      b.threshold < depth ∨ b.isPaused = true ∧ ¬ depth < b.threshold / 2 := by
  obtain ⟨threshold, paused⟩ := b
  have harith : depth < threshold / 2 → ¬ threshold < depth := by omega
  unfold BackpressureController.check BackpressureController.isPaused
  cases paused with
  | true =>
    by_cases hshort : depth < threshold / 2
    · simp [hshort, harith hshort]
    · simp [hshort]
  | false =>
    by_cases hlong : threshold < depth
    · simp [hlong]
    · simp [hlong]

@[simp] theorem threshold_check (b : BackpressureController) (depth : Nat) :
    (b.check depth).2.threshold = b.threshold := by
  unfold BackpressureController.check
  split_ifs <;> rfl

/-- An early commit finds the scheduler paused if the queue is long, or if it was paused and the
queue is not short. -/
theorem pausedAt_iff (s : PipelineScheduler) (round : Round) (leader : BlockRef) (txs : List EthSignedTx) :
    let input := Input.event (.softCommit round leader txs)
    s.pausedAt round txs = true ↔
      input.Stops s ∨ s.backpressure.isPaused = true ∧ ¬ input.Releases s :=
  isPaused_check s.backpressure (s.pending.insert round txs).depth

/-- An early commit leaves the scheduler as it found it after the check. -/
theorem isPaused_handleSoftCommit (s : PipelineScheduler) (round : Round) (txs : List EthSignedTx) :
    (s.handleSoftCommit round txs).2.backpressure.isPaused = s.pausedAt round txs := by
  cases hpaused : s.pausedAt round txs with
  | true =>
    have hafter : s.handleSoftCommit round txs = { s with pending := s.pending.insert round txs }.checkDepth :=
      if_pos hpaused
    rw [hafter]
    exact hpaused
  | false =>
    have hafter : s.handleSoftCommit round txs = _ := if_neg (ne_true_of_eq_false hpaused)
    rw [hafter]
    -- the queue is as long as before it was drained, so the second check finds what the first did
    have hdepth : (s.pending.insert round txs).drainDispatchable.2.depth = (s.pending.insert round txs).depth :=
      OrdMap.size_eq_of_contains (PendingQueue.handedOut_drain _ _).keys
    have hcheck := isPaused_check s.backpressure (s.pending.insert round txs).depth
    refine Bool.eq_false_iff.mpr fun hagain => ?_
    have hagain : ((s.backpressure.check (s.pending.insert round txs).depth).2.check
        (s.pending.insert round txs).drainDispatchable.2.depth).2.isPaused = true := hagain
    rw [hdepth, isPaused_check] at hagain
    rcases hagain with hlong | ⟨hstill, -⟩
    · rw [threshold_check] at hlong
      have := hcheck.mpr (.inl hlong)
      exact absurd (this.symm.trans hpaused) (by decide)
    · exact absurd (hstill.symm.trans hpaused) (by decide)

/-- **The flag after an input.** -/
theorem isPaused_step (s : PipelineScheduler) (input : Input) :
    (s.step input).2.backpressure.isPaused = true ↔
      input.Stops s ∨ s.backpressure.isPaused = true ∧ ¬ input.Releases s := by
  cases input with
  | signal signal =>
    cases signal with
    | slowDown => exact iff_of_true rfl (.inl rfl)
    | resume =>
      refine iff_of_false (fun h => (by cases h)) fun h => ?_
      rcases h with h | ⟨-, h⟩
      · cases h
      · exact h rfl
  | event event =>
    cases event with
    | softCommit round leader txs =>
      show (s.handleSoftCommit round txs).2.backpressure.isPaused = true ↔ _
      rw [isPaused_handleSoftCommit]
      exact pausedAt_iff s round leader txs
    | hardCommit subdag =>
      constructor
      · intro h
        exact .inr ⟨h, id⟩
      · intro h
        rcases h with h | h
        · exact h.elim
        · exact h.1

theorem Input.Stops.not_releases {s : PipelineScheduler} {input : Input} (h : input.Stops s) :
    ¬ input.Releases s := by
  cases input with
  | signal signal =>
    intro hrel
    have hstop : signal = .slowDown := h
    rw [hstop] at hrel
    cases hrel
  | event event =>
    cases event with
    | softCommit round leader txs =>
      have harith : ∀ t d : Nat, t < d → ¬ d < t / 2 := by omega
      exact harith _ _ h
    | hardCommit subdag => exact h.elim

/-- A paused scheduler is paused after a run exactly if every release is revoked. -/
theorem isPaused_run_iff {s : PipelineScheduler} (h : s.backpressure.isPaused = true) (inputs : List Input) :
    (s.run inputs).2.backpressure.isPaused = true ↔ Revoked s inputs := by
  have hflag := @Machine.flag_run_iff _ _ _ PipelineScheduler.machine s
    (fun s => s.backpressure.isPaused = true) (fun s input => input.Stops s) (fun s input => input.Releases s)
    isPaused_step (fun _ _ hstop => hstop.not_releases) h inputs
  simp only [PipelineScheduler.machine_run] at hflag
  exact hflag

/-! ### The batches -/

/-- An early commit sends something if it finds the scheduler running and the next round waiting. -/
theorem batches_soft_eq_nil (s : PipelineScheduler) (round : Round) (txs : List EthSignedTx) :
    batches (s.handleSoftCommit round txs).1 = [] ↔
      ((s.pending.insert round txs).dispatch ≠ none → s.pausedAt round txs = true) := by
  cases hpaused : s.pausedAt round txs with
  | true => exact iff_of_true (PipelineScheduler.handleSoftCommit_paused hpaused).1 fun _ => rfl
  | false =>
    rw [(PipelineScheduler.handleSoftCommit_running hpaused).1, List.map_eq_nil_iff]
    constructor
    · intro hnil hdispatch
      have hmem := PendingQueue.next_mem_drain hdispatch
      rw [hnil] at hmem
      exact absurd hmem List.not_mem_nil
    · intro h
      by_contra hne
      have hdispatch : (s.pending.insert round txs).dispatch ≠ none :=
        fun hnone => hne (PendingQueue.drain_eq_nil hnone)
      cases h hdispatch

theorem batches_run_eq_nil (s : PipelineScheduler) (inputs : List Input) :
    batches (s.run inputs).1 = [] ↔ ∀ before input after, inputs = before ++ input :: after →
      batches ((s.run before).2.step input).1 = [] := by
  induction inputs using List.reverseRecOn with
  | nil =>
    refine iff_of_true rfl fun before input after hsplit => ?_
    exact absurd hsplit.symm (List.append_ne_nil_of_right_ne_nil _ (List.cons_ne_nil _ _))
  | append_singleton inputs last ih =>
    rw [PipelineScheduler.run_append, batches_append, List.append_eq_nil_iff, ih]
    show _ ∧ batches (((s.run inputs).2.step last).1 ++ []) = [] ↔ _
    rw [List.append_nil]
    constructor
    · intro h before input after hsplit
      rcases concat_eq_split.mp hsplit with ⟨rfl, rfl, rfl⟩ | ⟨mid, rfl, rfl⟩
      · exact h.2
      · exact h.1 before input mid rfl
    · intro h
      refine ⟨fun before input after hsplit => ?_, h inputs last [] rfl⟩
      exact h before input (after ++ [last]) (by rw [hsplit, List.append_assoc, List.cons_append])

/-- A paused scheduler sends no batch exactly if it is held back. -/
theorem batches_paused_iff {s : PipelineScheduler} (h : s.backpressure.isPaused = true) (inputs : List Input) :
    batches (s.run inputs).1 = [] ↔ HeldBack s inputs := by
  have hsoft : ∀ before round leader txs, batches
      ((s.run before).2.step (.event (.softCommit round leader txs))).1 = [] ↔
      (((s.run before).2.pending.insert round txs).dispatch ≠ none →
        Revoked s (before ++ [.event (.softCommit round leader txs)])) := by
    intro before round leader txs
    refine (batches_soft_eq_nil _ round txs).trans (imp_congr_right fun _ => ?_)
    rw [← isPaused_run_iff h, PipelineScheduler.run_append, ← isPaused_handleSoftCommit]
    exact Iff.rfl
  rw [batches_run_eq_nil]
  constructor
  · intro hall before round leader txs after hsplit
    exact (hsoft before round leader txs).mp (hall before _ after hsplit)
  · intro hheld before input after hsplit
    cases input with
    | signal signal => rfl
    | event event =>
      cases event with
      | softCommit round leader txs =>
        exact (hsoft before round leader txs).mpr (hheld before round leader txs after hsplit)
      | hardCommit subdag => rfl

/-- **A SlowDown of the executor**, in every run and whatever comes after it. Up to any point no
batch is sent exactly if the scheduler is held back: whenever an early commit leaves the next
round waiting, every early commit since that left fewer than half the threshold in the queue (and
every `Resume`) was followed by one that left more than the threshold, or by another `SlowDown`.
Every final commit is answered meanwhile. -/
theorem run_slowDown_iff (before inputs : List Input) :
    let s := (PipelineScheduler.new.run (before ++ [.signal .slowDown])).2
    (batches (s.run inputs).1 = [] ↔ HeldBack s inputs) ∧
      ∀ front subdag back, inputs = front ++ .event (.hardCommit subdag) :: back →
        ∃ d rest, (s.run inputs).1 = (s.run front).1 ++ .decision d :: rest ∧
          d.commitIndex = subdag.commitIndex := by
  intro s
  have hpaused : s.backpressure.isPaused = true := by
    unfold s
    rw [PipelineScheduler.run_append]
    rfl
  refine ⟨batches_paused_iff hpaused inputs, fun front subdag back hsplit => ?_⟩
  rw [hsplit, PipelineScheduler.run_hardCommit]
  exact ⟨_, _, rfl, PipelineScheduler.handleHardCommit_commitIndex _ subdag⟩

/-- The first early commit after a `SlowDown` finds the queue short, and is sent. -/
theorem slowDown_lifted :
    (PipelineScheduler.new.run [.signal .slowDown, .event (earlyCommit 3)]).1 =
      [.signal .resume, .batch ⟨3, 1, [], true⟩] := by
  decide +kernel

end DualOptimistic.Scheduler
