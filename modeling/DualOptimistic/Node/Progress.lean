import DualOptimistic.Node.TestNode
import DualOptimistic.Scheduler.EarlyPath

/-! Whether the wired node gets done.

Every run of the node is finite, whatever its parties do first (`run_ends`), and ends with
everything delivered, or with the loop waiting for room in the executor's channel and the
executor waiting for room in the channel back to the loop (`stuck_iff`). An executor without a
delay never signals, so the node always delivers everything, and the logs are always the same
(`undelayed_outcome`). With a delay the two can wait for each other, but not before the 38th early
commit (`circular_wait_late`). -/
namespace DualOptimistic.Node
open Data Consensus Scheduler

/-! ### How much the scheduler sends -/

/-- The early commits among the events. -/
def softCommits (events : List ConsensusEvent) : List ConsensusEvent := events.filter ConsensusEvent.isSoft

theorem softCommits_append (l m : List ConsensusEvent) : softCommits (l ++ m) = softCommits l ++ softCommits m :=
  List.filter_append ..

/-- There are at most as many batches as early commits. -/
theorem batches_length_le (inputs : List Input) :
    (batches (PipelineScheduler.new.run inputs).1).length ≤ (softCommits (consensusEvents inputs)).length := by
  have hsub : (batches (PipelineScheduler.new.run inputs).1).map TxBatch.round ⊆
      (softCommits (consensusEvents inputs)).map ConsensusEvent.round := by
    intro round hround
    obtain ⟨b, hb, rfl⟩ := List.mem_map.mp hround
    obtain ⟨leader, txs, hmem⟩ := batch_of_soft inputs hb
    exact List.mem_map.mpr ⟨_, List.mem_filter.mpr ⟨hmem, rfl⟩, rfl⟩
  have hle := (List.subperm_of_subset (run_tracks inputs).once hsub).length_le
  rwa [List.length_map, List.length_map] at hle

/-- Apart from batches, an early commit makes the scheduler send at most two signals, and a final
commit a decision. -/
theorem step_length_le (s : PipelineScheduler) (input : Input) :
    (s.step input).1.length ≤ (batches (s.step input).1).length + 2 * (softCommits (consensusEvents [input])).length +
        (hardIndices (consensusEvents [input])).length ∧
      (decisions (s.step input).1).length = (hardIndices (consensusEvents [input])).length := by
  have hcheck : ∀ s : PipelineScheduler, s.checkDepth.1.length ≤ 1 ∧ decisions s.checkDepth.1 = [] := by
    intro s
    unfold PipelineScheduler.checkDepth
    dsimp only
    cases (s.backpressure.check s.pending.depth).1 with
    | none => exact ⟨Nat.zero_le _, rfl⟩
    | some x => exact ⟨le_refl _, rfl⟩
  cases input with
  | signal x => exact ⟨Nat.zero_le _, rfl⟩
  | event e =>
    cases e with
    | hardCommit subdag => exact ⟨le_refl _, rfl⟩
    | softCommit round leader txs =>
      show (s.handleSoftCommit round txs).1.length ≤ (batches (s.handleSoftCommit round txs).1).length + 2 * 1 + 0 ∧
        (decisions (s.handleSoftCommit round txs).1).length = 0
      unfold PipelineScheduler.handleSoftCommit
      dsimp only
      generalize ({ s with pending := s.pending.insert round txs } : PipelineScheduler) = inserted
      obtain ⟨hfirst, hnone⟩ := hcheck inserted
      split_ifs
      · rw [hnone]
        exact ⟨by omega, rfl⟩
      · obtain ⟨hsecond, hnone'⟩ := hcheck
          ⟨inserted.checkDepth.2.backpressure, inserted.checkDepth.2.pending.drainDispatchable.2⟩
        have hitems : decisions (inserted.checkDepth.2.pending.drainDispatchable.1.map fun item =>
            Output.batch (PipelineScheduler.optimisticBatch item)) = [] := by
          rw [decisions, List.filterMap_map]
          exact List.filterMap_eq_nil_iff.mpr fun _ _ => rfl
        constructor
        · rw [batches_append, PipelineScheduler.batches_checkDepth, PipelineScheduler.batches_flushPending]
          simp only [PipelineScheduler.flushPending, List.length_append, List.length_map, List.nil_append]
          omega
        · simp only [PipelineScheduler.flushPending, decisions_append, hnone, hnone', hitems, List.append_nil,
            List.length_nil]

/-- **What a run sends** is at most three times its early commits and once its final commits. -/
theorem outputs_length_le (inputs : List Input) :
    (PipelineScheduler.new.run inputs).1.length ≤ 3 * (softCommits (consensusEvents inputs)).length +
        (hardIndices (consensusEvents inputs)).length ∧
      (decisions (PipelineScheduler.new.run inputs).1).length = (hardIndices (consensusEvents inputs)).length := by
  have hrun : ∀ s : PipelineScheduler, (s.run inputs).1.length ≤ (batches (s.run inputs).1).length +
        2 * (softCommits (consensusEvents inputs)).length + (hardIndices (consensusEvents inputs)).length ∧
      (decisions (s.run inputs).1).length = (hardIndices (consensusEvents inputs)).length := by
    induction inputs with
    | nil => exact fun s => ⟨Nat.zero_le _, rfl⟩
    | cons input rest ih =>
      intro s
      obtain ⟨hstep, hdecided⟩ := step_length_le s input
      obtain ⟨hrest, hlater⟩ := ih (s.step input).2
      have hsplit : consensusEvents (input :: rest) = consensusEvents [input] ++ consensusEvents rest :=
        consensusEvents_append [input] rest
      rw [PipelineScheduler.run]
      simp only [hsplit, softCommits_append, hardIndices_append, batches_append, decisions_append, List.length_append]
      exact ⟨by omega, by omega⟩
  obtain ⟨hlength, hdecided⟩ := hrun .new
  have hbatches := batches_length_le inputs
  exact ⟨by omega, hdecided⟩

theorem soft_add_hard (events : List ConsensusEvent) :
    (softCommits events).length + (hardIndices events).length = events.length := by
  induction events with
  | nil => rfl
  | cons e rest ih =>
    cases e with
    | softCommit round leader txs =>
      show (softCommits rest).length + 1 + (hardIndices rest).length = rest.length + 1
      omega
    | hardCommit subdag =>
      show (softCommits rest).length + ((hardIndices rest).length + 1) = rest.length + 1
      omega

/-! ### Every run is finite -/

/-- Whether the executor is awake again and has not said so. -/
def awake : ExecutorState → Nat
  | .resuming => 1
  | _ => 0

/-- How often the executor has woken up, by the signals it has sent. -/
def wakes (s : TestNode) : Nat := ((signals s.taken).length + s.backpressure.length + awake s.executorState) / 2

/-- What the parties have done. -/
def work (s : TestNode) : Nat :=
  s.consensus.sent.length + s.consensus.position + 2 * (signals s.taken).length + s.backpressure.length + wakes s +
    s.sent.length + s.executorEvents.length + s.commitEvents.length

theorem length_signalled (count : Nat) (state : ExecutorState) : (signalled count state).length =
    match state with
    | .receiving => 2 * count
    | .slowing => 2 * (count - 1)
    | .sleeping => 2 * (count - 1) + 1
    | .resuming => 2 * (count - 1) + 1 := by
  cases state with
  | receiving => simp [signalled, Nat.mul_comm]
  | slowing => simp [signalled, Nat.mul_comm]
  | sleeping => simp [signalled, Nat.mul_comm]
  | resuming => simp [signalled, Nat.mul_comm]

section
variable {delayed : Bool} {events : List ConsensusEvent} {s s' : TestNode}

/-- The number of signals, by how far the executor is. -/
theorem signals_length (h : Consistent delayed events s) :
    (signals s.taken).length + s.backpressure.length =
      if delayed then (signalled s.executorEvents.length s.executorState).length else 0 := by
  rw [← List.length_append, h.signals]
  cases delayed with
  | false => rfl
  | true => rfl

/-- **Every action** is some work. -/
theorem work_step (h : Consistent delayed events s) {a : NodeAction} (hstep : s.step delayed a = some s') :
    work s < work s' := by
  cases a with
  | broadcast =>
    simp only [TestNode.step] at hstep
    split at hstep
    · cases hstep
    · obtain rfl := Option.some.inj hstep
      simp only [work, wakes, Broadcast.send, List.length_append, List.length_singleton]
      omega
  | takeEvent =>
    simp only [TestNode.step, TestNode.takeEvent] at hstep
    split_ifs at hstep
    unfold Broadcast.recv at hstep
    split_ifs at hstep with hlag hnext
    · obtain rfl := Option.some.inj hstep
      simp only [work, wakes]
      omega
    · obtain rfl := Option.some.inj hstep
      simp only [work, wakes, TestNode.turn, signals_append, List.length_append,
        show ∀ e, signals [Input.event e] = [] from fun _ => rfl, List.length_nil]
      omega
  | takeSignal =>
    simp only [TestNode.step, TestNode.takeSignal] at hstep
    split_ifs at hstep
    split at hstep
    · cases hstep
    · rename_i x rest hqueue
      obtain rfl := Option.some.inj hstep
      simp only [work, wakes, TestNode.turn, signals_append, List.length_append, hqueue, List.length_cons,
        show signals [Input.signal x] = [x] from rfl, List.length_nil]
      omega
  | send =>
    simp only [TestNode.step, TestNode.send] at hstep
    split at hstep
    · cases hstep
    · split_ifs at hstep
      obtain rfl := Option.some.inj hstep
      simp only [work, wakes, List.length_append, List.length_singleton]
      omega
    · split_ifs at hstep
      obtain rfl := Option.some.inj hstep
      simp only [work, wakes, List.length_append, List.length_singleton]
      omega
    · obtain rfl := Option.some.inj hstep
      simp only [work, wakes, List.length_append, List.length_singleton]
      omega
  | receiveBatch =>
    simp only [TestNode.step, TestNode.receiveBatch] at hstep
    split at hstep
    · rename_i b rest hstate hqueue
      obtain rfl := Option.some.inj hstep
      cases delayed with
      | false =>
        simp [work, wakes, hstate, awake]
      | true =>
        simp [work, wakes, hstate, awake]
    · cases hstep
  | slowDown =>
    simp only [TestNode.step, TestNode.signal] at hstep
    split_ifs at hstep with hguard
    obtain rfl := Option.some.inj hstep
    simp only [work, wakes, List.length_append, List.length_singleton, hguard.1, awake]
    omega
  | wake =>
    simp only [TestNode.step] at hstep
    split_ifs at hstep with hstate
    obtain rfl := Option.some.inj hstep
    -- an odd number of signals has been sent
    have hdelayed : delayed = true := (h.state (by rw [hstate]; decide)).1
    have hlength := signals_length h
    rw [if_pos hdelayed, length_signalled, hstate] at hlength
    simp only [work, wakes, hstate, awake]
    dsimp only at hlength
    omega
  | resume =>
    simp only [TestNode.step, TestNode.signal] at hstep
    split_ifs at hstep with hguard
    obtain rfl := Option.some.inj hstep
    simp only [work, wakes, List.length_append, List.length_singleton, hguard.1, awake]
    omega
  | receiveDecision =>
    simp only [TestNode.step] at hstep
    split at hstep
    · cases hstep
    · obtain rfl := Option.some.inj hstep
      simp only [work, wakes, List.length_append, List.length_singleton]
      omega

/-- What can be done at all. -/
theorem work_le (h : Consistent delayed events s) : work s ≤ 11 * events.length := by
  have hall := congrArg List.length h.all
  have hposition := s.consensus.position_le
  have htaken := h.taken.length_le
  have hpassed : s.consensus.passed.length ≤ s.consensus.sent.length := by
    rw [Broadcast.passed, List.length_take]
    exact Nat.min_le_right ..
  have hkinds := soft_add_hard (consensusEvents s.taken)
  obtain ⟨hout, hdecided⟩ := outputs_length_le s.taken
  have hbatches := batches_length_le s.taken
  have hexecuted := congrArg List.length h.executed
  have hcommitted := congrArg List.length h.committed
  have hsignals := signals_length h
  rw [h.run] at hout hdecided hbatches
  simp only [List.length_append, List.length_map, batches_append, decisions_append] at *
  have hsent : (signals s.taken).length + s.backpressure.length ≤ 2 * s.executorEvents.length := by
    rw [hsignals]
    cases delayed with
    | false => exact Nat.zero_le _
    | true =>
      rw [if_pos rfl, length_signalled]
      cases hstate : s.executorState with
      | receiving => exact le_refl _
      | slowing =>
        dsimp only
        omega
      | sleeping =>
        have hne := List.length_pos_iff.mpr (h.state (by rw [hstate]; decide)).2
        dsimp only
        omega
      | resuming =>
        have hne := List.length_pos_iff.mpr (h.state (by rw [hstate]; decide)).2
        dsimp only
        omega
  have hwakes : wakes s ≤ s.executorEvents.length := by
    unfold wakes
    cases hstate : s.executorState with
    | resuming =>
      have hpos := List.length_pos_iff.mpr (h.state (by rw [hstate]; decide)).2
      rw [hsignals, if_pos (h.state (by rw [hstate]; decide)).1, length_signalled, hstate]
      simp only [awake]
      omega
    | receiving | slowing | sleeping =>
      simp only [awake]
      omega
  unfold work
  omega

/-! ### Where a run can end -/

/-- Everything is delivered, and all parties wait for more. -/
structure Finished (s : TestNode) : Prop where
  upcoming : s.upcoming = []
  position : s.consensus.position = s.consensus.sent.length
  outbox : s.outbox = []
  executor : s.executor = []
  commit : s.commit = []
  backpressure : s.backpressure = []
  receiving : s.executorState = .receiving

/-- The loop waits for room in the channel to the executor, and the executor for room in the
channel to the loop. -/
structure CircularWait (s : TestNode) : Prop where
  outbox : ∃ b rest, s.outbox = .batch b :: rest
  executor : s.executor.length = schedulerExecutorCap
  backpressure : s.backpressure.length = backpressureCap
  signalling : s.executorState = .slowing ∨ s.executorState = .resuming

/-- No party can do anything. -/
def Stuck (delayed : Bool) (s : TestNode) : Prop := ∀ a, s.step delayed a = none

theorem Finished.step (h : Finished s) (a : NodeAction) : s.step delayed a = none := by
  cases a with
  | broadcast => simp [TestNode.step, h.upcoming]
  | takeEvent =>
    have hrecv : s.consensus.recv eventChannelCapacity = none := by
      have hposition := h.position
      rw [Broadcast.recv, if_neg (by omega), dif_neg (by omega)]
    simp [TestNode.step, TestNode.takeEvent, hrecv]
  | takeSignal => simp [TestNode.step, TestNode.takeSignal, h.backpressure]
  | send => simp [TestNode.step, TestNode.send, h.outbox]
  | receiveBatch => simp [TestNode.step, TestNode.receiveBatch, h.executor]
  | slowDown => simp [TestNode.step, TestNode.signal, h.receiving]
  | wake => simp [TestNode.step, h.receiving]
  | resume => simp [TestNode.step, TestNode.signal, h.receiving]
  | receiveDecision => simp [TestNode.step, h.commit]

/-- **In a circular wait** only the consensus node and the commit wrapper can do anything, and
the wait goes on. -/
theorem CircularWait.step (h : CircularWait s) {a : NodeAction} (hstep : s.step delayed a = some s') :
    (a = .broadcast ∧ s.upcoming ≠ [] ∨ a = .receiveDecision ∧ s.commit ≠ []) ∧
      CircularWait s' ∧ s'.taken = s.taken ∧ s'.sent = s.sent ∧ s'.executorEvents = s.executorEvents := by
  obtain ⟨b, rest, houtbox⟩ := h.outbox
  have hnot : s.executorState ≠ .receiving ∧ s.executorState ≠ .sleeping := by
    rcases h.signalling with hstate | hstate
    · rw [hstate]
      decide
    · rw [hstate]
      decide
  cases a with
  | broadcast =>
    simp only [TestNode.step] at hstep
    split at hstep
    · cases hstep
    · rename_i e later hupcoming
      obtain rfl := Option.some.inj hstep
      refine ⟨.inl ⟨rfl, ?_⟩, ⟨h.outbox, h.executor, h.backpressure, h.signalling⟩, rfl, rfl, rfl⟩
      rw [hupcoming]
      exact List.cons_ne_nil _ _
  | receiveDecision =>
    simp only [TestNode.step] at hstep
    split at hstep
    · cases hstep
    · rename_i d later hqueue
      obtain rfl := Option.some.inj hstep
      refine ⟨.inr ⟨rfl, ?_⟩, ⟨h.outbox, h.executor, h.backpressure, h.signalling⟩, rfl, rfl, rfl⟩
      rw [hqueue]
      exact List.cons_ne_nil _ _
  | takeEvent => simp [TestNode.step, TestNode.takeEvent, houtbox] at hstep
  | takeSignal => simp [TestNode.step, TestNode.takeSignal, houtbox] at hstep
  | send => simp [TestNode.step, TestNode.send, houtbox, h.executor] at hstep
  | receiveBatch =>
    simp only [TestNode.step, TestNode.receiveBatch] at hstep
    split at hstep
    · rename_i hstate _
      exact absurd hstate hnot.1
    · cases hstep
  | slowDown => simp [TestNode.step, TestNode.signal, h.backpressure] at hstep
  | wake => simp [TestNode.step, hnot.2] at hstep
  | resume => simp [TestNode.step, TestNode.signal, h.backpressure] at hstep

theorem Stuck.commit_eq (h : Stuck delayed s) : s.commit = [] := by
  have hstep := h .receiveDecision
  simp only [TestNode.step] at hstep
  split at hstep
  · assumption
  · cases hstep

theorem Stuck.upcoming_eq (h : Stuck delayed s) : s.upcoming = [] := by
  have hstep := h .broadcast
  simp only [TestNode.step] at hstep
  split at hstep
  · assumption
  · cases hstep

/-- A stuck executor waits for a batch, or for room to signal. -/
theorem Stuck.executor_cases (h : Stuck delayed s) (hconsistent : Consistent delayed events s) :
    s.executorState = .receiving ∧ s.executor = [] ∨
      (s.executorState = .slowing ∨ s.executorState = .resuming) ∧ s.backpressure.length = backpressureCap := by
  have hfull : ∀ before after x, s.executorState = before → s.signal before after x = none →
      s.backpressure.length = backpressureCap := by
    intro before after x hstate hnone
    by_contra hne
    have hroom : s.backpressure.length < backpressureCap := lt_of_le_of_ne hconsistent.backpressure_le hne
    rw [TestNode.signal, if_pos ⟨hstate, hroom⟩] at hnone
    cases hnone
  cases hstate : s.executorState with
  | receiving =>
    left
    cases hqueue : s.executor with
    | nil => exact ⟨rfl, rfl⟩
    | cons b rest =>
      have hstep := h .receiveBatch
      simp only [TestNode.step, TestNode.receiveBatch, hstate, hqueue] at hstep
      cases hstep
  | slowing => exact .inr ⟨.inl rfl, hfull _ _ _ hstate (h .slowDown)⟩
  | sleeping =>
    have hstep := h .wake
    simp only [TestNode.step, hstate] at hstep
    cases hstep
  | resuming => exact .inr ⟨.inr rfl, hfull _ _ _ hstate (h .resume)⟩

/-- **Where a run can end**: with everything delivered, or in a circular wait. -/
theorem stuck_iff (hconsistent : Consistent delayed events s) :
    Stuck delayed s ↔ Finished s ∨ CircularWait s ∧ s.upcoming = [] ∧ s.commit = [] := by
  constructor
  · intro h
    cases houtbox : s.outbox with
    | nil =>
      left
      have htake := h .takeEvent
      have hsignal := h .takeSignal
      simp only [TestNode.step, TestNode.takeEvent, TestNode.takeSignal, houtbox, List.isEmpty_nil, if_true] at htake hsignal
      have hsignals : s.backpressure = [] := by
        split at hsignal
        · assumption
        · cases hsignal
      have hposition : s.consensus.position = s.consensus.sent.length := by
        unfold Broadcast.recv at htake
        split_ifs at htake with hlag hnext
        exact Nat.le_antisymm s.consensus.position_le (Nat.not_lt.mp hnext)
      rcases h.executor_cases hconsistent with ⟨hstate, hexecutor⟩ | ⟨-, hfull⟩
      · exact ⟨h.upcoming_eq, hposition, houtbox, hexecutor, h.commit_eq, hsignals, hstate⟩
      · rw [hsignals] at hfull
        cases hfull
    | cons o rest =>
      right
      have hsend := h .send
      simp only [TestNode.step, TestNode.send, houtbox] at hsend
      cases o with
      | signal x => cases hsend
      | decision d =>
        -- the commit wrapper has emptied its channel
        simp only [h.commit_eq] at hsend
        cases hsend
      | batch b =>
        have hexecutor : s.executor.length = schedulerExecutorCap := by
          by_contra hne
          dsimp only at hsend
          rw [if_pos (lt_of_le_of_ne hconsistent.executor_le hne)] at hsend
          cases hsend
        rcases h.executor_cases hconsistent with ⟨-, hempty⟩ | ⟨hstate, hfull⟩
        · rw [hempty] at hexecutor
          cases hexecutor
        · exact ⟨⟨⟨b, rest, houtbox⟩, hexecutor, hfull, hstate⟩, h.upcoming_eq, h.commit_eq⟩
  · intro h a
    rcases h with hfinished | ⟨hwait, hupcoming, hcommit⟩
    · exact hfinished.step a
    · cases hstep : s.step delayed a with
      | none => rfl
      | some s' =>
        rcases (hwait.step hstep).1 with ⟨-, hne⟩ | ⟨-, hne⟩
        · exact absurd hupcoming hne
        · exact absurd hcommit hne

theorem work_run (h : Consistent delayed events s) {actions : List NodeAction}
    (hrun : s.run delayed actions = some s') : work s + actions.length ≤ work s' := by
  induction actions generalizing s with
  | nil =>
    obtain rfl := Option.some.inj hrun
    exact le_refl _
  | cons a rest ih =>
    obtain ⟨next, hnext, hrest⟩ := Option.bind_eq_some_iff.mp hrun
    have hfirst := work_step h hnext
    have hlater := ih (h.step hnext) hrest
    rw [List.length_cons]
    omega

/-- The wait goes on, whatever is done. -/
theorem CircularWait.of_run (h : CircularWait s) {actions : List NodeAction}
    (hrun : s.run delayed actions = some s') :
    CircularWait s' ∧ s'.taken = s.taken ∧ s'.sent = s.sent ∧ s'.executorEvents = s.executorEvents := by
  induction actions generalizing s with
  | nil =>
    obtain rfl := Option.some.inj hrun
    exact ⟨h, rfl, rfl, rfl⟩
  | cons a rest ih =>
    obtain ⟨next, hnext, hrest⟩ := Option.bind_eq_some_iff.mp hrun
    obtain ⟨-, hwait, htaken, hsent, hevents⟩ := h.step hnext
    obtain ⟨hlater, htaken', hsent', hevents'⟩ := ih hwait hrest
    exact ⟨hlater, htaken'.trans htaken, hsent'.trans hsent, hevents'.trans hevents⟩

/-- By the time of a circular wait, 38 batches have left the queue: the one waiting, 32 in the
channel, and five that the executor has taken to send eight signals and wait with the ninth. -/
theorem CircularWait.batches_le (h : CircularWait s) (hconsistent : Consistent delayed events s) :
    delayed = true ∧ 38 ≤ (softCommits events).length := by
  have hstate : s.executorState ≠ .receiving := by
    rcases h.signalling with hstate | hstate
    · rw [hstate]
      decide
    · rw [hstate]
      decide
  obtain ⟨hdelayed, -⟩ := hconsistent.state hstate
  refine ⟨hdelayed, ?_⟩
  obtain ⟨b, rest, houtbox⟩ := h.outbox
  have hsignals := signals_length hconsistent
  rw [if_pos hdelayed, length_signalled, h.backpressure] at hsignals
  have hfive : 5 ≤ s.executorEvents.length := by
    rcases h.signalling with hstate | hstate
    · rw [hstate] at hsignals
      simp only [backpressureCap] at hsignals
      omega
    · rw [hstate] at hsignals
      simp only [backpressureCap] at hsignals
      omega
  have hexecuted := congrArg List.length hconsistent.executed
  have hbatches := batches_length_le s.taken
  rw [hconsistent.run, houtbox, batches_append, List.length_append] at hbatches
  have hwaiting : 1 ≤ (batches (.batch b :: rest)).length := Nat.le_add_left ..
  simp only [List.length_append, List.length_map, h.executor, schedulerExecutorCap] at hexecuted
  have hsoft : (softCommits (consensusEvents s.taken)).length ≤ (softCommits events).length := by
    have hsub : (consensusEvents s.taken).Sublist events := by
      rw [← hconsistent.all]
      exact hconsistent.taken.trans ((List.take_sublist ..).trans (List.sublist_append_left ..))
    exact (hsub.filter _).length_le
  omega

end

/-! ### The outcome -/

theorem eq_events_of_signals {inputs : List Input} (h : signals inputs = []) :
    inputs = (consensusEvents inputs).map .event := by
  induction inputs with
  | nil => rfl
  | cons input rest ih =>
    cases input with
    | signal x => cases h
    | event e => exact congrArg (Input.event e :: ·) (ih h)

/-- Without a delay the loop has taken a first part of the events, and nothing else. -/
theorem Consistent.undelayed {events : List ConsensusEvent} {s : TestNode} (h : Consistent false events s)
    (hevents : events.length ≤ eventChannelCapacity) :
    s.taken = s.consensus.passed.map .event ∧
      s.consensus.passed ++ (s.consensus.sent.drop s.consensus.position ++ s.upcoming) = events := by
  have hsignals : Node.signals s.taken = [] := (List.append_eq_nil_iff.mp h.signals).1
  constructor
  · rw [← h.unlagged hevents]
    exact eq_events_of_signals hsignals
  · rw [← List.append_assoc, Broadcast.passed, List.take_append_drop]
    exact h.all

/-- Without a delay a run that cannot go on has delivered what the scheduler alone sends. -/
theorem Consistent.delivered {events : List ConsensusEvent} {s : TestNode} (h : Consistent false events s)
    (hevents : events.length ≤ eventChannelCapacity) (hstuck : Stuck false s) :
    let outputs := (PipelineScheduler.new.run (events.map .event)).1
    s.executorEvents = (batches outputs).map executorEvent ∧ s.commitEvents = (decisions outputs).map commitEvent := by
  intro outputs
  rcases (stuck_iff h).mp hstuck with hfinished | ⟨hwait, -⟩
  · have hall : outputs = s.sent := by
      have hpassed : s.consensus.passed = events := by
        rw [← h.all, hfinished.upcoming, List.append_nil, Broadcast.passed, hfinished.position, List.take_length]
      show (PipelineScheduler.new.run (events.map .event)).1 = _
      rw [← hpassed, ← (h.undelayed hevents).1, h.run, hfinished.outbox, List.append_nil]
    rw [hall, ← h.executed, ← h.committed, hfinished.executor, hfinished.commit]
    exact ⟨(List.append_nil _).symm, (List.append_nil _).symm⟩
  · cases (hwait.batches_le h).1

section
variable {delayed : Bool} {events : List ConsensusEvent} {actions : List NodeAction} {s : TestNode}

/-- **The wired node**, in every interleaving of its parties: each log, with what is on its way to
it, is what the scheduler alone sends there on the inputs it has taken, in order and without loss;
and these are events that were broadcast, in order, and signals as the executor sent them. -/
theorem run_consistent (hrun : (TestNode.new events).run delayed actions = some s) : Consistent delayed events s :=
  (consistent_new delayed events).of_run hrun

theorem three_lt : 3 < u32Size := by decide

/-- A wave with its early and its final commit. -/
def oneWave : List ConsensusEvent := [earlyCommit 3 three_lt, finalCommit 3 1 three_lt]

/-- Its batch is taken before its decision is sent. -/
def handleWave : List NodeAction :=
  [.broadcast, .broadcast, .takeEvent, .send, .receiveBatch, .takeEvent, .slowDown, .send, .wake, .takeSignal,
    .receiveDecision, .resume, .takeSignal]

theorem run_consistent_wave : ∃ s, (TestNode.new oneWave).run true handleWave = some s ∧ Consistent true oneWave s ∧
    s.executorEvents = [⟨3, 1, true, 0⟩] ∧ s.commitEvents = [.commit 1 3] := by
  have hsome : ((TestNode.new oneWave).run true handleWave).isSome := by decide +kernel
  obtain ⟨s, hrun⟩ := Option.isSome_iff_exists.mp hsome
  have hlogs : ((TestNode.new oneWave).run true handleWave).map (fun s => (s.executorEvents, s.commitEvents)) =
      some ([⟨3, 1, true, 0⟩], [.commit 1 3]) := by decide +kernel
  rw [hrun] at hlogs
  obtain ⟨hexecuted, hcommitted⟩ := Prod.mk.inj (Option.some.inj hlogs)
  exact ⟨s, hrun, run_consistent hrun, hexecuted, hcommitted⟩

/-- **A run of the wired node ends**, after at most eleven actions for each event; and it can
end only with everything delivered, or with the loop and the executor waiting for each other. -/
theorem run_ends (hrun : (TestNode.new events).run delayed actions = some s) :
    actions.length ≤ 11 * events.length ∧
      (Stuck delayed s ↔ Finished s ∨ CircularWait s ∧ s.upcoming = [] ∧ s.commit = []) := by
  have hconsistent := (consistent_new delayed events).of_run hrun
  refine ⟨?_, stuck_iff hconsistent⟩
  have hwork := work_run (consistent_new delayed events) hrun
  have hle := work_le hconsistent
  omega

/-- The wave is done with. -/
theorem run_ends_wave : ∃ s, (TestNode.new oneWave).run true handleWave = some s ∧ Stuck true s ∧
    handleWave.length ≤ 11 * oneWave.length := by
  have hsome : ((TestNode.new oneWave).run true handleWave).isSome := by decide +kernel
  obtain ⟨s, hrun⟩ := Option.isSome_iff_exists.mp hsome
  have hdone : ((TestNode.new oneWave).run true handleWave).map (fun s => ((s.upcoming.length, s.outbox.length,
      s.executor.length, s.commit.length, s.backpressure.length), s.executorState, s.consensus.position,
        s.consensus.sent.length)) = some ((0, 0, 0, 0, 0), .receiving, 2, 2) := by decide +kernel
  rw [hrun, Option.map_some, Option.some.injEq] at hdone
  simp only [Prod.mk.injEq, List.length_eq_zero_iff] at hdone
  obtain ⟨⟨hupcoming, houtbox, hexecutor, hcommit, hbackpressure⟩, hstate, hposition, hlength⟩ := hdone
  obtain ⟨hbound, hstuck⟩ := run_ends hrun
  refine ⟨s, hrun, hstuck.mpr (.inl ?_), hbound⟩
  exact ⟨hupcoming, hposition.trans hlength.symm, houtbox, hexecutor, hcommit, hbackpressure, hstate⟩

/-- **Without a delay the outcome is always the same.** As long as no more events are broadcast
than the channel keeps, each log is at all times a first part of what the scheduler alone makes
of the events, and a run that cannot go on has logged all of it. -/
theorem undelayed_outcome (hevents : events.length ≤ eventChannelCapacity)
    (hrun : (TestNode.new events).run false actions = some s) :
    let outputs := (PipelineScheduler.new.run (events.map .event)).1
    s.executorEvents <+: (batches outputs).map executorEvent ∧ s.commitEvents <+: (decisions outputs).map commitEvent ∧
      (Stuck false s → s.executorEvents = (batches outputs).map executorEvent ∧
        s.commitEvents = (decisions outputs).map commitEvent) := by
  intro outputs
  have hconsistent := (consistent_new false events).of_run hrun
  obtain ⟨htaken, hsplit⟩ := hconsistent.undelayed hevents
  have houtputs : ∃ later, outputs = s.sent ++ s.outbox ++ later := by
    refine ⟨(s.scheduler.run ((s.consensus.sent.drop s.consensus.position ++ s.upcoming).map .event)).1, ?_⟩
    show (PipelineScheduler.new.run (events.map .event)).1 = _
    rw [← hsplit, List.map_append, PipelineScheduler.run_append, ← htaken, hconsistent.run]
  obtain ⟨later, hlater⟩ := houtputs
  refine ⟨?_, ?_, hconsistent.delivered hevents⟩
  · simp only [hlater, batches_append, List.map_append, ← hconsistent.executed, List.append_assoc]
    exact List.prefix_append ..
  · simp only [hlater, decisions_append, List.map_append, ← hconsistent.committed, List.append_assoc]
    exact List.prefix_append ..

/-- Early and final commit of the wave are both on their way before the first batch is taken. -/
theorem undelayed_outcome_wave : ∃ s, (TestNode.new oneWave).run false
      [.broadcast, .takeEvent, .send, .broadcast, .takeEvent, .send, .receiveDecision] = some s ∧
    s.executorEvents <+: [⟨3, 1, true, 0⟩] ∧ s.commitEvents = [.commit 1 3] := by
  have hsome : ((TestNode.new oneWave).run false
      [.broadcast, .takeEvent, .send, .broadcast, .takeEvent, .send, .receiveDecision]).isSome := by decide +kernel
  obtain ⟨s, hrun⟩ := Option.isSome_iff_exists.mp hsome
  have hlog : ((TestNode.new oneWave).run false
      [.broadcast, .takeEvent, .send, .broadcast, .takeEvent, .send, .receiveDecision]).map TestNode.commitEvents =
        some [.commit 1 3] := by decide +kernel
  rw [hrun] at hlog
  have hbatches : (batches (PipelineScheduler.new.run (oneWave.map .event)).1).map executorEvent =
      [⟨3, 1, true, 0⟩] := by decide +kernel
  exact ⟨s, hrun, hbatches ▸ (undelayed_outcome (by decide) hrun).1, Option.some.inj hlog⟩

/-- **The loop and the executor can wait for each other**, and then do so for ever: nothing is
taken, sent or executed any more. It takes an executor with a delay and 38 early commits. -/
theorem circular_wait_late (hrun : (TestNode.new events).run delayed actions = some s) (hwait : CircularWait s) :
    delayed = true ∧ 38 ≤ (softCommits events).length ∧
      ∀ more s', s.run delayed more = some s' →
        CircularWait s' ∧ s'.taken = s.taken ∧ s'.sent = s.sent ∧ s'.executorEvents = s.executorEvents := by
  obtain ⟨hdelayed, hlate⟩ := hwait.batches_le ((consistent_new delayed events).of_run hrun)
  exact ⟨hdelayed, hlate, fun more s' hmore => hwait.of_run hmore⟩

end

theorem round_lt (n : Fin 38) : 3 * (n.val + 1) < u32Size := by
  have hn := n.isLt
  simp only [u32Size]
  omega

/-- The early and the final commit of 38 waves. -/
def waves : List ConsensusEvent := (List.finRange 38).flatMap fun n =>
  [earlyCommit (3 * (n.val + 1)) (round_lt n), finalCommit (3 * (n.val + 1)) (n.val + 1) (round_lt n)]

/-- The loop takes events only. The executor comes as far as the fifth batch, and the loop as far
as the batch of the last wave. -/
def crowd : List NodeAction := ((List.range 37).flatMap fun n =>
  [.broadcast, .takeEvent, .send, .broadcast, .takeEvent, .send, .receiveDecision] ++
    if n < 4 then [.receiveBatch, .slowDown, .wake, .resume] else if n = 4 then [.receiveBatch] else []) ++
  [.broadcast, .takeEvent]

/-- 38 early commits are enough. -/
theorem circular_wait_late_reached : ∃ s, (TestNode.new waves).run true crowd = some s ∧ CircularWait s ∧
    (softCommits waves).length = 38 ∧ ∀ more s', s.run true more = some s' → s'.executorEvents = s.executorEvents := by
  have hsome : ((TestNode.new waves).run true crowd).isSome := by decide +kernel
  obtain ⟨s, hrun⟩ := Option.isSome_iff_exists.mp hsome
  have hstate : ((TestNode.new waves).run true crowd).map (fun s => (s.outbox, s.executor.length,
      s.backpressure.length, s.executorState)) = some ([.batch ⟨114, 38, [], true⟩], 32, 8, .slowing) := by
    decide +kernel
  rw [hrun, Option.map_some, Option.some.injEq] at hstate
  simp only [Prod.mk.injEq] at hstate
  obtain ⟨houtbox, hexecutor, hbackpressure, hslowing⟩ := hstate
  have hwait : CircularWait s := ⟨⟨_, _, houtbox⟩, hexecutor, hbackpressure, .inl hslowing⟩
  refine ⟨s, hrun, hwait, by decide +kernel, fun more s' hmore => ?_⟩
  exact ((circular_wait_late hrun hwait).2.2 more s' hmore).2.2.2

end DualOptimistic.Node
