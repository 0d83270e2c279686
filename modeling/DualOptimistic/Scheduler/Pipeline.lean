import DualOptimistic.Data.Machine
import DualOptimistic.Scheduler.PendingQueue

/-! The scheduler between consensus and execution (`scheduler/src/pipeline.rs`,
`scheduler/src/backpressure.rs`).

A run takes consensus events and executor signals in the order the loop takes them, and
what it sends on its three channels is one list, in the order of sending. A batch that was
handed out early stays known by its round: `Tracks` says what the queue and the batches
sent so far have to do with the events handled, and every run keeps it (`run_tracks`). -/
namespace DualOptimistic.Scheduler
open Data Consensus

/-! ### Backpressure -/

inductive BackpressureSignal where
  /-- The executor's queue is filling up; pause SoftCommit dispatch. -/
  | slowDown
  /-- The executor has capacity; resume normal dispatch. -/
  | resume
deriving DecidableEq

structure BackpressureController where
  threshold : Nat
  paused : Bool

namespace BackpressureController

def new (threshold : Nat) : BackpressureController := ⟨threshold, false⟩

/-- Evaluate the depth; a change of state is signalled. -/
def check (b : BackpressureController) (depth : Nat) : Option BackpressureSignal × BackpressureController :=
  if depth > b.threshold ∧ !b.paused then (some .slowDown, { b with paused := true })
  else if depth < b.threshold / 2 ∧ b.paused then (some .resume, { b with paused := false })
  else (none, b)

/-- Apply a signal received from the executor. -/
def update (b : BackpressureController) : BackpressureSignal → BackpressureController
  | .slowDown => { b with paused := true }
  | .resume => { b with paused := false }

def isPaused (b : BackpressureController) : Bool := b.paused

end BackpressureController

/-! ### The scheduler -/

structure TxBatch where
  round : Round
  commitIndex : Nat
  txs : List EthSignedTx
  /-- Based on a SoftCommit, not on a HardCommit. -/
  isOptimistic : Bool
deriving DecidableEq

/-- Decision forwarded to the commit layer after a HardCommit. -/
inductive CommitDecision where
  /-- Speculative execution was correct; finalize it. -/
  | commit (commitIndex : Nat) (round : Round)
  /-- Speculative result must be discarded. -/
  | discard (commitIndex : Nat)
  /-- No speculative run existed; the executor must run these now. -/
  | freshBatch (batch : TxBatch)
deriving DecidableEq

def CommitDecision.commitIndex : CommitDecision → Nat
  | commit commitIndex _ => commitIndex
  | discard commitIndex => commitIndex
  | freshBatch b => b.commitIndex

/-- What the scheduler sends: to the executor, to the commit layer, to its producers. -/
inductive Output where
  | batch (batch : TxBatch)
  | decision (decision : CommitDecision)
  | signal (signal : BackpressureSignal)
deriving DecidableEq

/-- What the scheduler receives: from consensus, from the executor. -/
inductive Input where
  | event (event : ConsensusEvent)
  | signal (signal : BackpressureSignal)
deriving DecidableEq

structure PipelineScheduler where
  backpressure : BackpressureController
  pending : PendingQueue

namespace PipelineScheduler

def defaultThreshold : Nat := 16

/-- The leader round of the first wave. -/
def firstLeaderRound : Round := 3

def new : PipelineScheduler :=
  ⟨.new defaultThreshold, .new firstLeaderRound defaultThreshold⟩

/-- Hold the depth of the queue against the threshold. -/
def checkDepth (s : PipelineScheduler) : List Output × PipelineScheduler :=
  let checked := s.backpressure.check s.pending.depth
  (checked.1.toList.map .signal, { s with backpressure := checked.2 })

/-- The batch of a drained entry. Its index is that of the wave. -/
def optimisticBatch (item : Round × List EthSignedTx) : TxBatch :=
  ⟨item.1, item.1 / waveLength, item.2, true⟩

/-- Send all consecutive dispatchable entries to the executor in order. -/
def flushPending (s : PipelineScheduler) : List Output × PipelineScheduler :=
  let drained := s.pending.drainDispatchable
  let checked := { s with pending := drained.2 }.checkDepth
  (drained.1.map (fun item => .batch (optimisticBatch item)) ++ checked.1, checked.2)

def handleSoftCommit (s : PipelineScheduler) (round : Round) (txs : List EthSignedTx) :
    List Output × PipelineScheduler :=
  let checked := { s with pending := s.pending.insert round txs }.checkDepth
  if checked.2.backpressure.isPaused then checked
  else
    let flushed := checked.2.flushPending
    (checked.1 ++ flushed.1, flushed.2)

def handleHardCommit (s : PipelineScheduler) (subdag : OurCommittedSubDag) :
    CommitDecision × PipelineScheduler :=
  let answer := s.pending.onHardCommit subdag.leader.round subdag.commitIndex
  let decision := match answer.1 with
    | .commit round commitIndex => .commit commitIndex round
    | .freshExecution round commitIndex => .freshBatch ⟨round, commitIndex, subdag.txs, false⟩
  (decision, { s with pending := answer.2 })

def handleConsensusEvent (s : PipelineScheduler) : ConsensusEvent → List Output × PipelineScheduler
  | .softCommit round _ txs => s.handleSoftCommit round txs
  | .hardCommit subdag =>
    let answer := s.handleHardCommit subdag
    ([.decision answer.1], answer.2)

/-- One turn of the event loop. -/
def step (s : PipelineScheduler) : Input → List Output × PipelineScheduler
  | .event event => s.handleConsensusEvent event
  | .signal signal => ([], { s with backpressure := s.backpressure.update signal })

def run (s : PipelineScheduler) : List Input → List Output × PipelineScheduler
  | [] => ([], s)
  | input :: rest =>
    let first := s.step input
    let more := run first.2 rest
    (first.1 ++ more.1, more.2)

theorem run_append (s : PipelineScheduler) (l m : List Input) :
    s.run (l ++ m) = ((s.run l).1 ++ ((s.run l).2.run m).1, ((s.run l).2.run m).2) := by
  induction l generalizing s with
  | nil => rfl
  | cons input rest ih =>
    show ((s.step input).1 ++ ((s.step input).2.run (rest ++ m)).1, ((s.step input).2.run (rest ++ m)).2) = _
    rw [ih, ← List.append_assoc]
    rfl

/-- The scheduler as a machine that answers each input with what it sends. -/
def machine : Machine PipelineScheduler Input (List Output) := ⟨step⟩

theorem machine_run (s : PipelineScheduler) (inputs : List Input) : machine.run s inputs = (s.run inputs).2 := by
  induction inputs generalizing s with
  | nil => rfl
  | cons input rest ih => exact ih _

end PipelineScheduler

/-! ### What is sent where -/

/-- The batches sent to the executor. -/
def batches (outputs : List Output) : List TxBatch :=
  outputs.filterMap fun o => match o with
    | .batch batch => some batch
    | _ => none

/-- The events among the inputs. -/
def consensusEvents (inputs : List Input) : List ConsensusEvent :=
  inputs.filterMap fun i => match i with
    | .event event => some event
    | .signal _ => none

theorem batches_append (l m : List Output) : batches (l ++ m) = batches l ++ batches m :=
  List.filterMap_append ..

theorem batches_signals (l : List BackpressureSignal) : batches (l.map .signal) = [] := by
  rw [batches, List.filterMap_map]
  exact List.filterMap_eq_nil_iff.mpr fun _ _ => rfl

theorem batches_batches (l : List TxBatch) : batches (l.map .batch) = l := by
  rw [batches, List.filterMap_map]
  exact List.filterMap_some

theorem consensusEvents_append (l m : List Input) :
    consensusEvents (l ++ m) = consensusEvents l ++ consensusEvents m :=
  List.filterMap_append ..

theorem consensusEvents_events (l : List ConsensusEvent) : consensusEvents (l.map .event) = l := by
  rw [consensusEvents, List.filterMap_map]
  exact List.filterMap_some

namespace PipelineScheduler
variable {s : PipelineScheduler}

@[simp] theorem checkDepth_pending (s : PipelineScheduler) : s.checkDepth.2.pending = s.pending := rfl

@[simp] theorem batches_checkDepth (s : PipelineScheduler) : batches s.checkDepth.1 = [] :=
  batches_signals _

@[simp] theorem flushPending_pending (s : PipelineScheduler) :
    s.flushPending.2.pending = s.pending.drainDispatchable.2 := rfl

@[simp] theorem batches_flushPending (s : PipelineScheduler) :
    batches s.flushPending.1 = s.pending.drainDispatchable.1.map optimisticBatch := by
  unfold flushPending
  rw [batches_append, batches_checkDepth, List.append_nil, ← batches_batches (List.map ..), List.map_map]
  rfl

/-- Whether the scheduler is paused once an early commit is in the queue and its depth checked. -/
def pausedAt (s : PipelineScheduler) (round : Round) (txs : List EthSignedTx) : Bool :=
  { s with pending := s.pending.insert round txs }.checkDepth.2.backpressure.isPaused

/-- An early commit waits in the queue while the scheduler is paused. -/
theorem handleSoftCommit_paused {round : Round} {txs : List EthSignedTx} (h : s.pausedAt round txs = true) :
    batches (s.handleSoftCommit round txs).1 = [] ∧
      (s.handleSoftCommit round txs).2.pending = s.pending.insert round txs := by
  have hafter : s.handleSoftCommit round txs = { s with pending := s.pending.insert round txs }.checkDepth :=
    if_pos h
  rw [hafter]
  exact ⟨batches_checkDepth _, rfl⟩

/-- The queue is drained with an early commit that finds the scheduler running. -/
theorem handleSoftCommit_running {round : Round} {txs : List EthSignedTx} (h : s.pausedAt round txs = false) :
    let inserted := s.pending.insert round txs
    batches (s.handleSoftCommit round txs).1 = inserted.drainDispatchable.1.map optimisticBatch ∧
      (s.handleSoftCommit round txs).2.pending = inserted.drainDispatchable.2 := by
  have hafter : s.handleSoftCommit round txs = _ := if_neg (ne_true_of_eq_false h)
  rw [hafter]
  refine ⟨?_, rfl⟩
  rw [batches_append, batches_checkDepth, List.nil_append, batches_flushPending]
  rfl

/-- **An early commit** waits in the queue, or the queue is drained with it. -/
theorem handleSoftCommit_cases (s : PipelineScheduler) (round : Round) (txs : List EthSignedTx) :
    let inserted := s.pending.insert round txs
    let after := s.handleSoftCommit round txs
    batches after.1 = [] ∧ after.2.pending = inserted ∨
      batches after.1 = inserted.drainDispatchable.1.map optimisticBatch ∧
        after.2.pending = inserted.drainDispatchable.2 := by
  cases hpaused : s.pausedAt round txs with
  | true => exact .inl (handleSoftCommit_paused hpaused)
  | false => exact .inr (handleSoftCommit_running hpaused)

/-- **A final commit** is confirmed if its round is marked, and executed afresh if not. -/
theorem handleHardCommit_cases (s : PipelineScheduler) (subdag : OurCommittedSubDag) :
    (s.handleHardCommit subdag).2.pending = { s.pending with
        entries := s.pending.entries.erase subdag.leader.round } ∧
      ((s.handleHardCommit subdag).1 =
          .freshBatch ⟨subdag.leader.round, subdag.commitIndex, subdag.txs, false⟩ ∨
        (s.handleHardCommit subdag).1 = .commit subdag.commitIndex subdag.leader.round ∧
          ∃ txs, s.pending.entries.get? subdag.leader.round = some ⟨txs, .dispatched⟩) := by
  refine ⟨PendingQueue.onHardCommit_queue .., ?_⟩
  unfold handleHardCommit PendingQueue.onHardCommit
  split
  · rename_i txs hget
    exact .inr ⟨rfl, txs, hget⟩
  · exact .inl rfl

/-- A final commit is answered under its own index. -/
theorem handleHardCommit_commitIndex (s : PipelineScheduler) (subdag : OurCommittedSubDag) :
    (s.handleHardCommit subdag).1.commitIndex = subdag.commitIndex := by
  rcases (s.handleHardCommit_cases subdag).2 with hfresh | ⟨hcommit, -⟩
  · rw [hfresh]
    rfl
  · rw [hcommit]
    rfl

theorem decision_not_mem_checkDepth {d : CommitDecision} : .decision d ∉ s.checkDepth.1 := by
  intro hd
  obtain ⟨signal, -, hsignal⟩ := List.mem_map.mp hd
  cases hsignal

/-- An early commit is not answered. -/
theorem decision_not_mem_soft {round : Round} {txs : List EthSignedTx} {d : CommitDecision} :
    .decision d ∉ (s.handleSoftCommit round txs).1 := by
  intro hd
  unfold handleSoftCommit at hd
  dsimp only at hd
  split_ifs at hd with hpaused
  · exact decision_not_mem_checkDepth hd
  · rcases List.mem_append.mp hd with hd | hd
    · exact decision_not_mem_checkDepth hd
    · rcases List.mem_append.mp hd with hd | hd
      · obtain ⟨item, -, hitem⟩ := List.mem_map.mp hd
        cases hitem
      · exact decision_not_mem_checkDepth hd

/-- A turn that sends a decision handles a HardCommit, and sends nothing else. -/
theorem step_decision {input : Input} {front back : List Output} {d : CommitDecision}
    (h : (s.step input).1 = front ++ .decision d :: back) :
    front = [] ∧ ∃ subdag, input = .event (.hardCommit subdag) ∧ (s.handleHardCommit subdag).1 = d := by
  have hd : .decision d ∈ (s.step input).1 := by
    rw [h]
    exact List.mem_append_right _ (List.mem_cons_self ..)
  cases input with
  | signal signal => exact absurd hd List.not_mem_nil
  | event event =>
    cases event with
    | softCommit round leader txs => exact absurd hd decision_not_mem_soft
    | hardCommit subdag =>
      have hone : [.decision (s.handleHardCommit subdag).1] = front ++ .decision d :: back := h
      rcases List.singleton_eq_append_iff.mp hone with ⟨hnil, hcons⟩ | ⟨-, hcons⟩
      · obtain ⟨hdecision, -⟩ := List.cons.inj hcons
        exact ⟨hnil, subdag, rfl, (Output.decision.inj hdecision).symm⟩
      · exact absurd hcons (List.cons_ne_nil _ _)

/-- Every decision answers a HardCommit, and stands where that was handled. -/
theorem decision_answers {inputs : List Input} {front back : List Output} {d : CommitDecision}
    (h : (s.run inputs).1 = front ++ .decision d :: back) :
    ∃ before subdag after, inputs = before ++ .event (.hardCommit subdag) :: after ∧
      (s.run before).1 = front ∧ ((s.run before).2.handleHardCommit subdag).1 = d := by
  induction inputs generalizing s front with
  | nil => exact absurd h.symm (List.append_ne_nil_of_right_ne_nil _ (List.cons_ne_nil _ _))
  | cons input rest ih =>
    have hlater : ∀ front', ((s.step input).2.run rest).1 = front' ++ .decision d :: back →
        ∃ before subdag after, input :: rest = before ++ .event (.hardCommit subdag) :: after ∧
          (s.run before).1 = (s.step input).1 ++ front' ∧ ((s.run before).2.handleHardCommit subdag).1 = d := by
      intro front' hfront
      obtain ⟨before, subdag, after, hrest, hsent, hd⟩ := ih hfront
      exact ⟨input :: before, subdag, after, congrArg (input :: ·) hrest, congrArg ((s.step input).1 ++ ·) hsent, hd⟩
    have hsplit : (s.step input).1 ++ ((s.step input).2.run rest).1 = front ++ .decision d :: back := h
    rcases List.append_eq_append_iff.mp hsplit with ⟨front', rfl, hfront⟩ | ⟨tail, hfirst, htail⟩
    · exact hlater front' hfront
    · cases tail with
      | nil =>
        rw [List.append_nil] at hfirst
        rw [List.nil_append] at htail
        obtain ⟨before, subdag, after, hrest, hsent, hd⟩ := hlater [] htail.symm
        rw [List.append_nil, hfirst] at hsent
        exact ⟨before, subdag, after, hrest, hsent, hd⟩
      | cons x tail =>
        obtain ⟨rfl, -⟩ := List.cons.inj htail
        obtain ⟨rfl, subdag, rfl, hd⟩ := step_decision hfirst
        exact ⟨[], subdag, rest, rfl, rfl, hd⟩

/-- Every HardCommit is answered where it is handled. -/
theorem run_hardCommit (s : PipelineScheduler) (before after : List Input) (subdag : OurCommittedSubDag) :
    (s.run (before ++ .event (.hardCommit subdag) :: after)).1 = (s.run before).1 ++
      .decision ((s.run before).2.handleHardCommit subdag).1 ::
        (((s.run before).2.handleHardCommit subdag).2.run after).1 := by
  rw [run_append]
  rfl

end PipelineScheduler

/-! ### The queue and the batches -/

/-- The last early commit of the round. -/
def lastSoft (round : Round) (events : List ConsensusEvent) : Option ConsensusEvent :=
  (events.filter fun e => e.isSoft && decide (e.round = round)).getLast?

theorem lastSoft_soft (round r : Round) (events : List ConsensusEvent) (leader : BlockRef)
    (txs : List EthSignedTx) :
    lastSoft round (events ++ [.softCommit r leader txs]) =
      if r = round then some (.softCommit r leader txs) else lastSoft round events := by
  unfold lastSoft
  rw [List.filter_append]
  by_cases hr : r = round
  · have hkeep : [ConsensusEvent.softCommit r leader txs].filter
        (fun e => e.isSoft && decide (e.round = round)) = [.softCommit r leader txs] :=
      List.filter_eq_self.mpr fun e he => by
        rw [List.mem_singleton.mp he]
        exact decide_eq_true hr
    rw [hkeep, List.getLast?_concat, if_pos hr]
  · have hdrop : [ConsensusEvent.softCommit r leader txs].filter
        (fun e => e.isSoft && decide (e.round = round)) = [] :=
      List.filter_eq_nil_iff.mpr fun e he => by
        rw [List.mem_singleton.mp he]
        exact fun hkept => hr (of_decide_eq_true hkept)
    rw [hdrop, List.append_nil, if_neg hr]

theorem lastSoft_hard (round : Round) (events : List ConsensusEvent) (subdag : OurCommittedSubDag) :
    lastSoft round (events ++ [.hardCommit subdag]) = lastSoft round events := by
  have hdrop : [ConsensusEvent.hardCommit subdag].filter
      (fun e => e.isSoft && decide (e.round = round)) = [] := rfl
  unfold lastSoft
  rw [List.filter_append, hdrop, List.append_nil]

/-- The queue and the batches sent, after the events. An entry is of the last early commit of
its round; a marked entry was sent; a batch is sent once, and only below the next round. -/
structure Tracks (events : List ConsensusEvent) (sent : List TxBatch) (q : PendingQueue) : Prop where
  last : ∀ {r entry}, q.entries.get? r = some entry →
    ∃ leader, lastSoft r events = some (.softCommit r leader entry.txs)
  marked : ∀ {r txs}, q.entries.get? r = some ⟨txs, .dispatched⟩ →
    PipelineScheduler.optimisticBatch (r, txs) ∈ sent
  below : ∀ {b}, b ∈ sent → b.round < q.nextDispatchRound ∧ ∃ item, b = PipelineScheduler.optimisticBatch item
  once : (sent.map TxBatch.round).Nodup

namespace Tracks
variable {events : List ConsensusEvent} {sent : List TxBatch} {q q' : PendingQueue}

theorem insert (h : Tracks events sent q) (round : Round) (leader : BlockRef) (txs : List EthSignedTx) :
    Tracks (events ++ [.softCommit round leader txs]) sent (q.insert round txs) := by
  refine ⟨fun {r entry} hget => ?_, fun {r txs'} hget => ?_, h.below, h.once⟩
  · rw [PendingQueue.insert, OrdMap.get?_insert] at hget
    rw [lastSoft_soft]
    split_ifs at hget with hr
    · obtain rfl := Option.some.inj hget
      rw [if_pos hr.symm, hr]
      exact ⟨leader, rfl⟩
    · rw [if_neg (Ne.symm hr)]
      exact h.last hget
  · rw [PendingQueue.insert, OrdMap.get?_insert] at hget
    split_ifs at hget with hr
    · cases hget
    · exact h.marked hget

theorem dispatch (h : Tracks events sent q) {item : Round × List EthSignedTx}
    (hd : q.dispatch = some (item, q')) :
    Tracks events (sent ++ [PipelineScheduler.optimisticBatch item]) q' := by
  obtain ⟨hround, hget, hnext, hafter⟩ := PendingQueue.dispatch_eq_some hd
  have hlt : q.nextDispatchRound < q'.nextDispatchRound := by
    rw [hnext, hround]
    exact Nat.lt_add_of_pos_right (by decide)
  refine ⟨fun {r entry} hentry => ?_, fun {r txs} hentry => ?_, fun {b} hb => ?_, ?_⟩
  · rw [hafter] at hentry
    split_ifs at hentry with hr
    · obtain rfl := Option.some.inj hentry
      obtain ⟨leader, hlast⟩ := h.last hget
      rw [hr]
      exact ⟨leader, hlast⟩
    · exact h.last hentry
  · rw [hafter] at hentry
    split_ifs at hentry with hr
    · obtain rfl : item.2 = txs := congrArg PendingEntry.txs (Option.some.inj hentry)
      rw [hr]
      exact List.mem_append_right _ (List.mem_singleton_self _)
    · exact List.mem_append_left _ (h.marked hentry)
  · rcases List.mem_append.mp hb with hb | hb
    · exact ⟨(h.below hb).1.trans hlt, (h.below hb).2⟩
    · rw [List.mem_singleton.mp hb]
      refine ⟨?_, item, rfl⟩
      show item.1 < q'.nextDispatchRound
      rwa [hround]
  · rw [List.map_append]
    refine h.once.append (List.nodup_singleton _) fun r hr hr' => ?_
    obtain ⟨b, hb, rfl⟩ := List.mem_map.mp hr
    exact absurd ((List.mem_singleton.mp hr').trans hround) (Nat.ne_of_lt (h.below hb).1)

theorem drain (h : Tracks events sent q) :
    Tracks events (sent ++ q.drainDispatchable.1.map PipelineScheduler.optimisticBatch)
      q.drainDispatchable.2 := by
  refine @PendingQueue.drain_keeps
    (fun out q => Tracks events (sent ++ out.map PipelineScheduler.optimisticBatch) q) ?_ _ [] q ?_
  · intro out q item q' hout hd
    have := hout.dispatch hd
    rwa [List.append_assoc, ← List.map_singleton, ← List.map_append] at this
  · rwa [List.map_nil, List.append_nil]

theorem erase (h : Tracks events sent q) (subdag : OurCommittedSubDag) :
    Tracks (events ++ [.hardCommit subdag]) sent
      { q with entries := q.entries.erase subdag.leader.round } := by
  have hold : ∀ {r entry}, (q.entries.erase subdag.leader.round).get? r = some entry →
      q.entries.get? r = some entry := by
    intro r entry hget
    rw [OrdMap.get?_erase] at hget
    split_ifs at hget
    exact hget
  refine ⟨fun hget => ?_, fun hget => h.marked (hold hget), h.below, h.once⟩
  rw [lastSoft_hard]
  exact h.last (hold hget)

/-- **One turn of the loop** keeps track. -/
theorem step {s : PipelineScheduler} (h : Tracks events sent s.pending) (input : Input) :
    Tracks (events ++ consensusEvents [input]) (sent ++ batches (s.step input).1)
      (s.step input).2.pending := by
  cases input with
  | signal signal =>
    show Tracks (events ++ []) (sent ++ []) s.pending
    rwa [List.append_nil, List.append_nil]
  | event event =>
    cases event with
    | softCommit round leader txs =>
      show Tracks (events ++ [.softCommit round leader txs])
        (sent ++ batches (s.handleSoftCommit round txs).1) (s.handleSoftCommit round txs).2.pending
      have hinsert := h.insert round leader txs
      rcases s.handleSoftCommit_cases round txs with ⟨hbatches, hpending⟩ | ⟨hbatches, hpending⟩
      · rw [hbatches, hpending, List.append_nil]
        exact hinsert
      · rw [hbatches, hpending]
        exact hinsert.drain
    | hardCommit subdag =>
      show Tracks (events ++ [.hardCommit subdag]) (sent ++ []) (s.handleHardCommit subdag).2.pending
      rw [(s.handleHardCommit_cases subdag).1, List.append_nil]
      exact h.erase subdag

theorem run {s : PipelineScheduler} (h : Tracks events sent s.pending) (inputs : List Input) :
    Tracks (events ++ consensusEvents inputs) (sent ++ batches (s.run inputs).1) (s.run inputs).2.pending := by
  induction inputs generalizing events sent s with
  | nil =>
    show Tracks (events ++ []) (sent ++ []) s.pending
    rwa [List.append_nil, List.append_nil]
  | cons input rest ih =>
    have hlater := ih (h.step input)
    rwa [List.append_assoc, List.append_assoc, ← consensusEvents_append, ← batches_append] at hlater

end Tracks

/-- **Every run keeps track** of its queue and its batches. -/
theorem run_tracks (inputs : List Input) :
    Tracks (consensusEvents inputs) (batches (PipelineScheduler.new.run inputs).1)
      (PipelineScheduler.new.run inputs).2.pending := by
  have hnew : Tracks [] [] PipelineScheduler.new.pending :=
    ⟨fun hget => (by cases hget), fun hget => (by cases hget), fun hb => absurd hb List.not_mem_nil, List.nodup_nil⟩
  exact hnew.run inputs

end DualOptimistic.Scheduler
