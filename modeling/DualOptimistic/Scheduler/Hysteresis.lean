import DualOptimistic.Scheduler.Backlog
import DualOptimistic.Scheduler.Pausing

/-! The depth of the queue and the pause, in runs without executor signals.

The depth is the number of rounds with an early commit and no final commit since
(`depth_ranOn`). Every early commit has it checked, so a long queue is always a paused one and
the signals sent alternate. A final commit shortens the queue and has nothing checked: the
scheduler stays paused over a short queue exactly if some early commit had made the queue
long and none since found it short (`hysteresis_iff`). -/
namespace DualOptimistic.Scheduler
open Data Consensus

/-- The rounds with an early commit and no final commit since. -/
def openRounds (events : List ConsensusEvent) : Finset Round :=
  events.foldl (fun rounds event => match event with
    | .softCommit round _ _ => insert round rounds
    | .hardCommit subdag => rounds.erase subdag.leader.round) ∅

/-- The signals sent to the producers. -/
def signals (outputs : List Output) : List BackpressureSignal :=
  outputs.filterMap fun o => match o with
    | .signal signal => some signal
    | _ => none

/-- `SlowDown`, `Resume`, `SlowDown`, and so on. -/
def alternating (n : Nat) : List BackpressureSignal :=
  (List.range n).map fun i => if i % 2 = 0 then .slowDown else .resume

/-- A scheduler after the events. -/
def ranOn (events : List ConsensusEvent) : List Output × PipelineScheduler :=
  PipelineScheduler.new.run (events.map .event)

/-- After every event: a queue above the threshold is a paused one, one below half of it is not,
and the signals sent alternate, the last a `SlowDown` exactly if the scheduler is paused. -/
structure Hysteresis (events : List ConsensusEvent) : Prop where
  long : ∀ done, done <+: events →
    PipelineScheduler.defaultThreshold < (ranOn done).2.pending.depth → (ranOn done).2.backpressure.isPaused = true
  short : ∀ done, done <+: events →
    (ranOn done).2.pending.depth < PipelineScheduler.defaultThreshold / 2 →
      (ranOn done).2.backpressure.isPaused = false
  alternate : ∀ done, done <+: events → ∃ n, signals (ranOn done).1 = alternating n ∧
    ((signals (ranOn done).1).getLast? = some .slowDown ↔ (ranOn done).2.backpressure.isPaused = true)

/-- Every early commit that left more rounds open than the threshold was followed by one that left
fewer than half of it. -/
def AllReleased (events : List ConsensusEvent) : Prop :=
  ∀ front round leader txs back, events = front ++ .softCommit round leader txs :: back →
    PipelineScheduler.defaultThreshold < (openRounds (front ++ [.softCommit round leader txs])).card →
    ∃ mid round' leader' txs' rest, back = mid ++ .softCommit round' leader' txs' :: rest ∧
      (openRounds (front ++ .softCommit round leader txs :: mid ++ [.softCommit round' leader' txs'])).card <
        PipelineScheduler.defaultThreshold / 2

/-- Whenever a final commit leaves fewer than half the threshold of rounds open, all is released. -/
def ReleasedInTime (events : List ConsensusEvent) : Prop :=
  ∀ before subdag after, events = before ++ .hardCommit subdag :: after →
    (openRounds (before ++ [.hardCommit subdag])).card < PipelineScheduler.defaultThreshold / 2 →
    AllReleased before

/-! ### The depth -/

theorem size_eq_card {ν : Type} {m : OrdMap Round ν} {S : Finset Round}
    (h : ∀ r, m.contains r = true ↔ r ∈ S) : m.size = S.card := by
  have hS : m.keys.toFinset = S := by
    ext r
    rw [List.mem_toFinset, ← OrdMap.contains_iff_mem_keys, h]
  rw [← hS, List.toFinset_card_of_nodup m.keys_nodup, OrdMap.keys, List.length_map]
  rfl

theorem openRounds_soft (events : List ConsensusEvent) (round : Round) (leader : BlockRef)
    (txs : List EthSignedTx) :
    openRounds (events ++ [.softCommit round leader txs]) = insert round (openRounds events) := by
  simp [openRounds]

theorem openRounds_hard (events : List ConsensusEvent) (subdag : OurCommittedSubDag) :
    openRounds (events ++ [.hardCommit subdag]) = (openRounds events).erase subdag.leader.round := by
  simp [openRounds]

theorem ranOn_append (events : List ConsensusEvent) (event : ConsensusEvent) :
    ranOn (events ++ [event]) = ((ranOn events).1 ++ ((ranOn events).2.handleConsensusEvent event).1,
      ((ranOn events).2.handleConsensusEvent event).2) := by
  unfold ranOn
  rw [List.map_append, PipelineScheduler.run_append]
  show (_ ++ (_ ++ []), _) = _
  rw [List.append_nil]
  rfl

theorem contains_ranOn (events : List ConsensusEvent) (r : Round) :
    (ranOn events).2.pending.entries.contains r = true ↔ r ∈ openRounds events := by
  induction events using List.reverseRecOn with
  | nil => simp [openRounds, ranOn, PipelineScheduler.run, PipelineScheduler.new, PendingQueue.new]
  | append_singleton events event ih =>
    have hstep := get?_step_eq_none (ranOn events).2 (.event event) r
    have hcontains : ∀ q : PendingQueue, q.entries.contains r = true ↔ ¬ q.entries.get? r = none := by
      intro q
      rw [OrdMap.contains, Option.isSome_iff_ne_none]
    rw [hcontains] at ih
    rw [ranOn_append, hcontains]
    show ¬ ((ranOn events).2.step (.event event)).2.pending.entries.get? r = none ↔ _
    rw [hstep]
    cases event with
    | softCommit round leader txs =>
      rw [openRounds_soft, Finset.mem_insert, ← ih]
      simp only [Input.event.injEq, reduceCtorEq, false_and, exists_false, false_or,
        ConsensusEvent.softCommit.injEq]
      by_cases hr : r = round
      · simp [hr]
      · simp [hr, Ne.symm hr]
    | hardCommit subdag =>
      rw [openRounds_hard, Finset.mem_erase, ← ih]
      simp only [Input.event.injEq, ConsensusEvent.hardCommit.injEq, reduceCtorEq, exists_false, not_false_eq_true,
        and_true, exists_eq_left', not_or]
      exact and_congr_left fun _ => ne_comm

/-- **The depth** is the number of open rounds. -/
theorem depth_ranOn (events : List ConsensusEvent) :
    (ranOn events).2.pending.depth = (openRounds events).card :=
  size_eq_card (contains_ranOn events)

/-- The rounds in the queue once an early commit is in it. -/
theorem contains_insert_ranOn (events : List ConsensusEvent) (round : Round) (leader : BlockRef)
    (txs : List EthSignedTx) (r : Round) :
    ((ranOn events).2.pending.insert round txs).entries.contains r = true ↔
      r ∈ openRounds (events ++ [.softCommit round leader txs]) := by
  rw [openRounds_soft, Finset.mem_insert, ← contains_ranOn, PendingQueue.insert, OrdMap.contains_insert,
    Bool.or_eq_true, decide_eq_true_iff]

/-- The depth an early commit has checked. -/
theorem depth_insert (events : List ConsensusEvent) (round : Round) (leader : BlockRef) (txs : List EthSignedTx) :
    ((ranOn events).2.pending.insert round txs).depth =
      (openRounds (events ++ [.softCommit round leader txs])).card :=
  size_eq_card (contains_insert_ranOn events round leader txs)

/-! ### The signals -/

/-- What is signalled when the flag changes. -/
def change (before after : Bool) : List BackpressureSignal :=
  match before, after with
  | false, true => [.slowDown]
  | true, false => [.resume]
  | _, _ => []

theorem check_signal (b : BackpressureController) (depth : Nat) :
    (b.check depth).1.toList = change b.isPaused (b.check depth).2.isPaused := by
  obtain ⟨threshold, paused⟩ := b
  unfold BackpressureController.check BackpressureController.isPaused
  cases paused <;> split_ifs <;> simp_all [change]

theorem signals_append (l m : List Output) : signals (l ++ m) = signals l ++ signals m :=
  List.filterMap_append ..

theorem signals_checkDepth (s : PipelineScheduler) :
    signals s.checkDepth.1 = change s.backpressure.isPaused s.checkDepth.2.backpressure.isPaused := by
  rw [signals, PipelineScheduler.checkDepth, List.filterMap_map]
  exact List.filterMap_some.trans (check_signal ..)

/-- An early commit signals if it changes the flag, and once: the second check agrees with the first. -/
theorem signals_soft (s : PipelineScheduler) (round : Round) (txs : List EthSignedTx) :
    signals (s.handleSoftCommit round txs).1 =
      change s.backpressure.isPaused (s.handleSoftCommit round txs).2.backpressure.isPaused := by
  have hflag := isPaused_handleSoftCommit s round txs
  set inserted := { s with pending := s.pending.insert round txs }
  have hchecked : inserted.checkDepth.2.backpressure.isPaused = s.pausedAt round txs := rfl
  unfold PipelineScheduler.handleSoftCommit at hflag ⊢
  cases hpaused : s.pausedAt round txs with
  | true =>
    rw [if_pos (hchecked.trans hpaused)] at hflag ⊢
    exact signals_checkDepth inserted
  | false =>
    rw [if_neg (ne_true_of_eq_false (hchecked.trans hpaused))] at hflag ⊢
    dsimp only at hflag ⊢
    have hbatches : signals (inserted.checkDepth.2.pending.drainDispatchable.1.map
        fun item => Output.batch (PipelineScheduler.optimisticBatch item)) = [] := by
      rw [signals, List.filterMap_map]
      exact List.filterMap_eq_nil_iff.mpr fun _ _ => rfl
    have hsecond : signals inserted.checkDepth.2.flushPending.1 = [] := by
      rw [PipelineScheduler.flushPending, signals_append, hbatches, signals_checkDepth]
      show change inserted.checkDepth.2.backpressure.isPaused
        inserted.checkDepth.2.flushPending.2.backpressure.isPaused = []
      rw [hflag, hchecked, hpaused]
      rfl
    rw [signals_append, hsecond, List.append_nil, hflag, signals_checkDepth, hchecked]

theorem signals_step (s : PipelineScheduler) (event : ConsensusEvent) :
    signals (s.handleConsensusEvent event).1 =
      change s.backpressure.isPaused (s.handleConsensusEvent event).2.backpressure.isPaused := by
  cases event with
  | softCommit round leader txs => exact signals_soft s round txs
  | hardCommit subdag =>
    show [] = change s.backpressure.isPaused s.backpressure.isPaused
    cases s.backpressure.isPaused <;> rfl

theorem alternating_succ (n : Nat) :
    alternating (n + 1) = alternating n ++ [if n % 2 = 0 then .slowDown else .resume] := by
  simp [alternating, List.range_succ]

theorem alternating_getLast? (n : Nat) : (alternating n).getLast? = some .slowDown ↔ n % 2 = 1 := by
  cases n with
  | zero => simp [alternating]
  | succ n =>
    rw [alternating_succ, List.getLast?_concat, Option.some.injEq]
    split_ifs with heven
    · simp only [true_iff]
      omega
    · simp only [false_iff]
      omega

/-- **The signals alternate**, and an odd number of them has been sent exactly if the scheduler is
paused. -/
theorem signals_ranOn (events : List ConsensusEvent) :
    ∃ n, signals (ranOn events).1 = alternating n ∧ ((ranOn events).2.backpressure.isPaused = true ↔ n % 2 = 1) := by
  induction events using List.reverseRecOn with
  | nil => exact ⟨0, rfl, by decide⟩
  | append_singleton events event ih =>
    obtain ⟨n, hsignals, hodd⟩ := ih
    rw [ranOn_append, signals_append, signals_step, hsignals]
    generalize ((ranOn events).2.handleConsensusEvent event).2.backpressure.isPaused = after
    generalize (ranOn events).2.backpressure.isPaused = before at hodd
    cases before <;> cases after <;> simp only [change, reduceCtorEq, false_iff, true_iff] at hodd ⊢
    · exact ⟨n, List.append_nil _, hodd⟩
    · refine ⟨n + 1, ?_, by omega⟩
      rw [alternating_succ, if_pos (by omega)]
    · refine ⟨n + 1, ?_, by omega⟩
      rw [alternating_succ, if_neg (by omega)]
    · exact ⟨n, List.append_nil _, hodd⟩

/-! ### The flag -/

theorem threshold_ranOn (events : List ConsensusEvent) :
    (ranOn events).2.backpressure.threshold = PipelineScheduler.defaultThreshold := by
  induction events using List.reverseRecOn with
  | nil => rfl
  | append_singleton events event ih =>
    rw [ranOn_append, ← ih]
    cases event with
    | softCommit round leader txs =>
      show ((ranOn events).2.handleSoftCommit round txs).2.backpressure.threshold = _
      unfold PipelineScheduler.handleSoftCommit
      dsimp only
      split_ifs
      · exact threshold_check ..
      · exact (threshold_check ..).trans (threshold_check ..)
    | hardCommit subdag => rfl

theorem stops_ranOn (events : List ConsensusEvent) (round : Round) (leader : BlockRef) (txs : List EthSignedTx) :
    (Input.event (.softCommit round leader txs)).Stops (ranOn events).2 ↔
      PipelineScheduler.defaultThreshold < (openRounds (events ++ [.softCommit round leader txs])).card := by
  rw [← depth_insert, ← threshold_ranOn events]
  exact Iff.rfl

theorem releases_ranOn (events : List ConsensusEvent) (round : Round) (leader : BlockRef) (txs : List EthSignedTx) :
    (Input.event (.softCommit round leader txs)).Releases (ranOn events).2 ↔
      (openRounds (events ++ [.softCommit round leader txs])).card < PipelineScheduler.defaultThreshold / 2 := by
  rw [← depth_insert, ← threshold_ranOn events]
  exact Iff.rfl

theorem isPaused_soft (events : List ConsensusEvent) (round : Round) (leader : BlockRef) (txs : List EthSignedTx) :
    (ranOn (events ++ [.softCommit round leader txs])).2.backpressure.isPaused = true ↔
      PipelineScheduler.defaultThreshold < (openRounds (events ++ [.softCommit round leader txs])).card ∨
        (ranOn events).2.backpressure.isPaused = true ∧
          ¬ (openRounds (events ++ [.softCommit round leader txs])).card < PipelineScheduler.defaultThreshold / 2 := by
  rw [ranOn_append, ← stops_ranOn, ← releases_ranOn]
  exact isPaused_step (ranOn events).2 (.event (.softCommit round leader txs))

/-- A final commit leaves the flag as it is. -/
theorem isPaused_hard (events : List ConsensusEvent) (subdag : OurCommittedSubDag) :
    (ranOn (events ++ [.hardCommit subdag])).2.backpressure.isPaused = (ranOn events).2.backpressure.isPaused := by
  rw [ranOn_append]
  rfl

/-- Every long queue is a paused one. -/
theorem isPaused_of_long (events : List ConsensusEvent)
    (h : PipelineScheduler.defaultThreshold < (ranOn events).2.pending.depth) :
    (ranOn events).2.backpressure.isPaused = true := by
  induction events using List.reverseRecOn with
  | nil => exact absurd h (by decide)
  | append_singleton events event ih =>
    rw [depth_ranOn] at h
    cases event with
    | softCommit round leader txs => exact (isPaused_soft ..).mpr (.inl h)
    | hardCommit subdag =>
      rw [isPaused_hard]
      apply ih
      rw [openRounds_hard] at h
      rw [depth_ranOn]
      exact h.trans_le Finset.card_erase_le

/-- The scheduler as a machine on the events alone. -/
def eventMachine : Machine PipelineScheduler ConsensusEvent (List Output) := ⟨PipelineScheduler.handleConsensusEvent⟩

theorem eventMachine_run (events : List ConsensusEvent) : eventMachine.run .new events = (ranOn events).2 := by
  induction events using List.reverseRecOn with
  | nil => rfl
  | append_singleton events event ih =>
    rw [Machine.run_concat, ih, ranOn_append]
    rfl

/-- **The scheduler runs** exactly if all is released. -/
theorem running_iff (events : List ConsensusEvent) :
    (ranOn events).2.backpressure.isPaused = false ↔ AllReleased events := by
  have hstep : ∀ (s : PipelineScheduler) (event : ConsensusEvent),
      (eventMachine.step s event).2.backpressure.isPaused = false ↔
        (Input.event event).Releases s ∨ s.backpressure.isPaused = false ∧ ¬ (Input.event event).Stops s := by
    intro s event
    have hpaused := isPaused_step s (.event event)
    have hone : (Input.event event).Stops s → ¬ (Input.event event).Releases s := Input.Stops.not_releases
    rw [← Bool.not_eq_true, ← Bool.not_eq_true]
    show ¬ (s.step (.event event)).2.backpressure.isPaused = true ↔ _
    rw [hpaused]
    tauto
  have hflag := @Machine.flag_run_iff _ _ _ eventMachine .new (fun s => s.backpressure.isPaused = false)
    (fun s event => (Input.event event).Releases s) (fun s event => (Input.event event).Stops s)
    hstep (fun _ _ hrel hstop => hstop.not_releases hrel) rfl events
  simp only [eventMachine_run] at hflag
  rw [hflag]
  constructor
  · intro h front round leader txs back hsplit hlong
    obtain ⟨mid, event, rest, hback, hrel⟩ :=
      h front (.softCommit round leader txs) back hsplit ((stops_ranOn ..).mpr hlong)
    cases event with
    | softCommit round' leader' txs' => exact ⟨mid, round', leader', txs', rest, hback, (releases_ranOn ..).mp hrel⟩
    | hardCommit subdag => exact hrel.elim
  · intro h front event back hsplit hstop
    cases event with
    | softCommit round leader txs =>
      obtain ⟨mid, round', leader', txs', rest, hback, hshort⟩ :=
        h front round leader txs back hsplit ((stops_ranOn ..).mp hstop)
      exact ⟨mid, .softCommit round' leader' txs', rest, hback, (releases_ranOn ..).mpr hshort⟩
    | hardCommit subdag => exact hstop.elim

/-! ### The hysteresis -/

/-- **Depth hysteresis**, after every event of a run without executor signals: it holds exactly if,
where a final commit leaves fewer than half the threshold of rounds open, every early commit before
it that left more than the threshold was followed by one that left fewer than half. -/
theorem hysteresis_iff (events : List ConsensusEvent) : Hysteresis events ↔ ReleasedInTime events := by
  constructor
  · intro h before subdag after hsplit hshort
    have hrunning := h.short (before ++ [.hardCommit subdag]) ⟨after, by rw [hsplit]; simp⟩
      (by rwa [depth_ranOn])
    rw [isPaused_hard] at hrunning
    exact (running_iff before).mp hrunning
  · intro h
    refine ⟨fun done _ => isPaused_of_long done, fun done hdone hshort => ?_, fun done _ => ?_⟩
    · rw [depth_ranOn] at hshort
      induction done using List.reverseRecOn with
      | nil => rfl
      | append_singleton before event _ =>
        cases event with
        | softCommit round leader txs =>
          rw [← Bool.not_eq_true, isPaused_soft]
          rintro (hlong | ⟨-, hnot⟩)
          · unfold PipelineScheduler.defaultThreshold at hlong hshort
            omega
          · exact hnot hshort
        | hardCommit subdag =>
          obtain ⟨after, hafter⟩ := hdone
          rw [isPaused_hard, running_iff]
          rw [List.append_assoc, List.singleton_append] at hafter
          exact h before subdag after hafter.symm hshort
    · obtain ⟨n, hsignals, hodd⟩ := signals_ranOn done
      refine ⟨n, hsignals, ?_⟩
      rw [hsignals, alternating_getLast?, hodd]

/-- Seventeen early commits pause the scheduler. The final commits of ten of their rounds leave
seven in the queue, fewer than half of sixteen, and it is paused still. -/
theorem short_queue_paused :
    let events := [earlyCommit 3, earlyCommit 6, earlyCommit 9, earlyCommit 12, earlyCommit 15, earlyCommit 18,
      earlyCommit 21, earlyCommit 24, earlyCommit 27, earlyCommit 30, earlyCommit 33, earlyCommit 36, earlyCommit 39,
      earlyCommit 42, earlyCommit 45, earlyCommit 48, earlyCommit 51, finalCommit 3 1, finalCommit 6 2,
      finalCommit 9 3, finalCommit 12 4, finalCommit 15 5, finalCommit 18 6, finalCommit 21 7, finalCommit 24 8,
      finalCommit 27 9, finalCommit 30 10]
    (ranOn events).2.pending.depth = 7 ∧ (ranOn events).2.backpressure.isPaused = true ∧
      signals (ranOn events).1 = [.slowDown] ∧ ¬ Hysteresis events := by
  intro events
  have hdepth : (ranOn events).2.pending.depth = 7 := by decide +kernel
  have hpaused : (ranOn events).2.backpressure.isPaused = true := by decide +kernel
  refine ⟨hdepth, hpaused, by decide +kernel, fun h => ?_⟩
  have hrunning := h.short events (List.prefix_refl _) (by rw [hdepth]; decide)
  rw [hpaused] at hrunning
  cases hrunning

end DualOptimistic.Scheduler
