import DualOptimistic.Scheduler.Delivery

/-! The wired node (`node/src/lib.rs`, `parallel-evm/src/lib.rs`).

A node broadcasts its events to the loop of the scheduler; the loop sends batches to the executor
and decisions to the commit wrapper, each over a channel of bounded capacity; an executor with a
delay signals back before and after each batch, over a third one. A party that finds its channel
full waits. In every interleaving, what the executor and the commit wrapper have logged and what
is still on its way to them is what the scheduler, run alone on the inputs it has taken, sends
(`run_consistent`). -/
namespace DualOptimistic.Node
open Data Consensus Scheduler

/-! ### The parties -/

def schedulerExecutorCap : Nat := 32

def commitCap : Nat := 32

def backpressureCap : Nat := 8

/-- Event recorded by the executor for each batch processed. -/
structure ExecutorEvent where
  round : Round
  commitIndex : Nat
  isOptimistic : Bool
  txCount : Nat
deriving DecidableEq

def executorEvent (batch : TxBatch) : ExecutorEvent :=
  ⟨batch.round, batch.commitIndex, batch.isOptimistic, batch.txs.length⟩

/-- Commit decision as logged by the commit wrapper. -/
inductive CommitEvent where
  | commit (commitIndex : Nat) (round : Round)
  | discard (commitIndex : Nat)
  | freshBatch (round : Round) (commitIndex : Nat) (txCount : Nat)
deriving DecidableEq

def commitEvent : CommitDecision → CommitEvent
  | .commit commitIndex round => .commit commitIndex round
  | .discard commitIndex => .discard commitIndex
  | .freshBatch batch => .freshBatch batch.round batch.commitIndex batch.txs.length

/-- Where the loop of the executor stands: at its channel, or on the way through a delay. -/
inductive ExecutorState where
  | receiving
  | slowing
  | sleeping
  | resuming
deriving DecidableEq

/-- The node and its tasks. The receiver of the scheduler's own signals is dropped, so these go
nowhere. -/
structure TestNode where
  /-- What the consensus node has still to broadcast. -/
  upcoming : List ConsensusEvent
  consensus : Broadcast ConsensusEvent
  scheduler : PipelineScheduler
  /-- What the loop is about to send. -/
  outbox : List Output
  executor : List TxBatch
  commit : List CommitDecision
  backpressure : List BackpressureSignal
  executorState : ExecutorState
  executorEvents : List ExecutorEvent
  commitEvents : List CommitEvent
  /-- What the loop has taken, in order, and what it has sent. -/
  taken : List Input
  sent : List Output

inductive NodeAction where
  | broadcast
  | takeEvent
  | takeSignal
  | send
  | receiveBatch
  | slowDown
  | wake
  | resume
  | receiveDecision
deriving DecidableEq

namespace TestNode

def new (events : List ConsensusEvent) : TestNode where
  upcoming := events
  consensus := .new
  scheduler := .new
  outbox := []
  executor := []
  commit := []
  backpressure := []
  executorState := .receiving
  executorEvents := []
  commitEvents := []
  taken := []
  sent := []

/-- The loop handles an input. -/
def turn (s : TestNode) (input : Input) : TestNode :=
  { s with
    scheduler := (s.scheduler.step input).2
    outbox := (s.scheduler.step input).1
    taken := s.taken ++ [input] }

/-- The loop sends the next thing, if there is room for it. -/
def send (s : TestNode) : Option TestNode :=
  match s.outbox with
  | [] => none
  | .batch b :: rest =>
    if s.executor.length < schedulerExecutorCap then
      some { s with outbox := rest, sent := s.sent ++ [.batch b], executor := s.executor ++ [b] }
    else none
  | .decision d :: rest =>
    if s.commit.length < commitCap then
      some { s with outbox := rest, sent := s.sent ++ [.decision d], commit := s.commit ++ [d] }
    else none
  | .signal x :: rest => some { s with outbox := rest, sent := s.sent ++ [.signal x] }

/-- The loop selects the consensus branch. -/
def takeEvent (s : TestNode) : Option TestNode :=
  if s.outbox.isEmpty then
    match s.consensus.recv eventChannelCapacity with
    | none => none
    | some (.lagged _, c) => some { s with consensus := c }
    | some (.item e, c) => some ({ s with consensus := c }.turn (.event e))
  else none

/-- The loop selects the branch of the executor's signals. -/
def takeSignal (s : TestNode) : Option TestNode :=
  if s.outbox.isEmpty then
    match s.backpressure with
    | [] => none
    | x :: rest => some ({ s with backpressure := rest }.turn (.signal x))
  else none

def receiveBatch (delayed : Bool) (s : TestNode) : Option TestNode :=
  match s.executorState, s.executor with
  | .receiving, b :: rest =>
    some { s with
      executor := rest
      executorEvents := s.executorEvents ++ [executorEvent b]
      executorState := if delayed then .slowing else .receiving }
  | _, _ => none

/-- The executor sends a signal, if there is room for it. -/
def signal (s : TestNode) (before after : ExecutorState) (x : BackpressureSignal) : Option TestNode :=
  if s.executorState = before ∧ s.backpressure.length < backpressureCap then
    some { s with executorState := after, backpressure := s.backpressure ++ [x] }
  else none

/-- One action of one of the parties; none if it has to wait. -/
def step (delayed : Bool) (s : TestNode) : NodeAction → Option TestNode
  | .broadcast =>
    match s.upcoming with
    | [] => none
    | e :: rest => some { s with upcoming := rest, consensus := s.consensus.send e }
  | .takeEvent => s.takeEvent
  | .takeSignal => s.takeSignal
  | .send => s.send
  | .receiveBatch => s.receiveBatch delayed
  | .slowDown => s.signal .slowing .sleeping .slowDown
  | .wake => if s.executorState = .sleeping then some { s with executorState := .resuming } else none
  | .resume => s.signal .resuming .receiving .resume
  | .receiveDecision =>
    match s.commit with
    | [] => none
    | d :: rest => some { s with commit := rest, commitEvents := s.commitEvents ++ [commitEvent d] }

/-- A run of actions, none of which has to wait. -/
def run (delayed : Bool) (s : TestNode) : List NodeAction → Option TestNode
  | [] => some s
  | a :: rest => (s.step delayed a).bind fun s' => s'.run delayed rest

end TestNode

/-! ### What is on its way -/

/-- The decisions sent to the commit wrapper. -/
def decisions (outputs : List Output) : List CommitDecision :=
  outputs.filterMap fun o => match o with
    | .decision d => some d
    | _ => none

/-- The signals among the inputs. -/
def signals (inputs : List Input) : List BackpressureSignal :=
  inputs.filterMap fun i => match i with
    | .event _ => none
    | .signal x => some x

@[simp] theorem decisions_append (l m : List Output) : decisions (l ++ m) = decisions l ++ decisions m :=
  List.filterMap_append ..

@[simp] theorem signals_append (l m : List Input) : signals (l ++ m) = signals l ++ signals m :=
  List.filterMap_append ..

/-- What an executor with a delay has signalled: before and after each batch, as far as it is
with the last. -/
def signalled (count : Nat) : ExecutorState → List BackpressureSignal
  | .receiving => (List.replicate count [.slowDown, .resume]).flatten
  | .slowing => (List.replicate (count - 1) [.slowDown, .resume]).flatten
  | .sleeping => (List.replicate (count - 1) [.slowDown, .resume]).flatten ++ [.slowDown]
  | .resuming => (List.replicate (count - 1) [.slowDown, .resume]).flatten ++ [.slowDown]

/-- **What every run keeps.** Each log, with what is on its way to it, is what the loop has sent
there; what the loop has sent and is about to send is what the scheduler alone sends on the
inputs taken; those are events that were broadcast, in order, and signals as the executor sent
them; and no channel is above its capacity. -/
structure Consistent (delayed : Bool) (events : List ConsensusEvent) (s : TestNode) : Prop where
  all : s.consensus.sent ++ s.upcoming = events
  run : PipelineScheduler.new.run s.taken = (s.sent ++ s.outbox, s.scheduler)
  executed : s.executorEvents ++ s.executor.map executorEvent = (batches s.sent).map executorEvent
  committed : s.commitEvents ++ s.commit.map commitEvent = (decisions s.sent).map commitEvent
  signals : signals s.taken ++ s.backpressure =
    if delayed then signalled s.executorEvents.length s.executorState else []
  state : s.executorState ≠ .receiving → delayed = true ∧ s.executorEvents ≠ []
  taken : (consensusEvents s.taken).Sublist s.consensus.passed
  unlagged : events.length ≤ eventChannelCapacity → consensusEvents s.taken = s.consensus.passed
  executor_le : s.executor.length ≤ schedulerExecutorCap
  commit_le : s.commit.length ≤ commitCap
  backpressure_le : s.backpressure.length ≤ backpressureCap

theorem consistent_new (delayed : Bool) (events : List ConsensusEvent) :
    Consistent delayed events (.new events) where
  all := rfl
  run := rfl
  executed := rfl
  committed := rfl
  signals := by
    cases delayed with
    | false => rfl
    | true => rfl
  state h := absurd rfl h
  taken := List.Sublist.refl _
  unlagged _ := rfl
  executor_le := Nat.zero_le _
  commit_le := Nat.zero_le _
  backpressure_le := Nat.zero_le _

/-! ### One action -/

namespace Consistent
variable {delayed : Bool} {events : List ConsensusEvent} {s s' : TestNode}

/-- The loop takes an input when its outbox is empty. -/
theorem turn (h : Consistent delayed events s) (houtbox : s.outbox = []) (input : Input) :
    PipelineScheduler.new.run (s.turn input).taken =
      ((s.turn input).sent ++ (s.turn input).outbox, (s.turn input).scheduler) := by
  show PipelineScheduler.new.run (s.taken ++ [input]) = _
  rw [PipelineScheduler.run_append, h.run, houtbox, List.append_nil]
  show (s.sent ++ ((s.scheduler.step input).1 ++ []), (s.scheduler.step input).2) = _
  rw [List.append_nil]
  rfl

theorem takeEvent (h : Consistent delayed events s) (hstep : s.takeEvent = some s') :
    Consistent delayed events s' := by
  unfold TestNode.takeEvent at hstep
  split_ifs at hstep with hempty
  have houtbox : s.outbox = [] := List.isEmpty_iff.mp hempty
  split at hstep
  · cases hstep
  · -- the loop learns that it has missed events
    rename_i n c hrecv
    obtain rfl := Option.some.inj hstep
    obtain ⟨hsent, ⟨-, -, hpassed⟩ | ⟨x, hx, -⟩⟩ := Broadcast.recv_passed hrecv
    · refine ⟨?_, h.run, h.executed, h.committed, h.signals, h.state, ?_, fun hle => ?_, h.executor_le, h.commit_le,
        h.backpressure_le⟩
      · rw [hsent]
        exact h.all
      · rw [hpassed]
        exact h.taken.trans (List.sublist_append_left ..)
      · have hshort : s.consensus.sent.length ≤ s.consensus.position + eventChannelCapacity := by
          have hlength := congrArg List.length h.all
          rw [List.length_append] at hlength
          omega
        rw [hpassed, s.consensus.missed_eq_nil _ hshort, List.append_nil]
        exact h.unlagged hle
    · cases hx
  · rename_i e c hrecv
    obtain rfl := Option.some.inj hstep
    obtain ⟨hsent, ⟨n, hn, -⟩ | ⟨x, hx, hpassed⟩⟩ := Broadcast.recv_passed hrecv
    · cases hn
    · obtain rfl := Received.item.inj hx
      refine ⟨?_, h.turn houtbox (.event e), h.executed, h.committed, ?_, h.state, ?_, fun hle => ?_, h.executor_le,
        h.commit_le, h.backpressure_le⟩
      · show c.sent ++ s.upcoming = events
        rw [hsent]
        exact h.all
      · show Node.signals (s.taken ++ [.event e]) ++ s.backpressure = _
        rw [signals_append, show Node.signals [.event e] = [] from rfl, List.append_nil]
        exact h.signals
      · show (consensusEvents (s.taken ++ [.event e])).Sublist c.passed
        rw [consensusEvents_append, hpassed]
        exact h.taken.append (List.Sublist.refl _)
      · show consensusEvents (s.taken ++ [.event e]) = c.passed
        rw [consensusEvents_append, hpassed, h.unlagged hle]
        rfl

theorem takeSignal (h : Consistent delayed events s) (hstep : s.takeSignal = some s') :
    Consistent delayed events s' := by
  unfold TestNode.takeSignal at hstep
  split_ifs at hstep with hempty
  have houtbox : s.outbox = [] := List.isEmpty_iff.mp hempty
  split at hstep
  · cases hstep
  · rename_i x rest hqueue
    obtain rfl := Option.some.inj hstep
    have hlength := h.backpressure_le
    have hsignals := h.signals
    rw [hqueue] at hlength hsignals
    have htaken : consensusEvents (s.taken ++ [.signal x]) = consensusEvents s.taken := by
      rw [consensusEvents_append]
      exact List.append_nil _
    refine ⟨h.all, h.turn houtbox (.signal x), h.executed, h.committed, ?_, h.state, ?_, fun hle => ?_, h.executor_le,
      h.commit_le, Nat.le_of_succ_le hlength⟩
    · show Node.signals (s.taken ++ [.signal x]) ++ rest = _
      rw [signals_append, List.append_assoc]
      exact hsignals
    · show (consensusEvents (s.taken ++ [.signal x])).Sublist _
      rw [htaken]
      exact h.taken
    · show consensusEvents (s.taken ++ [.signal x]) = _
      rw [htaken]
      exact h.unlagged hle

theorem send (h : Consistent delayed events s) (hstep : s.send = some s') : Consistent delayed events s' := by
  have hrun : ∀ o rest, s.outbox = o :: rest →
      PipelineScheduler.new.run s.taken = ((s.sent ++ [o]) ++ rest, s.scheduler) := by
    intro o rest houtbox
    rw [h.run, houtbox, ← List.append_cons]
  unfold TestNode.send at hstep
  split at hstep
  · cases hstep
  · rename_i b rest houtbox
    split_ifs at hstep with hroom
    obtain rfl := Option.some.inj hstep
    refine ⟨h.all, hrun _ _ houtbox, ?_, ?_, h.signals, h.state, h.taken, h.unlagged, ?_, h.commit_le,
      h.backpressure_le⟩
    · simp only [batches_append, List.map_append, ← h.executed, List.append_assoc]
      rfl
    · simp only [decisions_append, show decisions [.batch b] = [] from rfl, List.append_nil]
      exact h.committed
    · rw [List.length_append]
      exact hroom
  · rename_i d rest houtbox
    split_ifs at hstep with hroom
    obtain rfl := Option.some.inj hstep
    refine ⟨h.all, hrun _ _ houtbox, ?_, ?_, h.signals, h.state, h.taken, h.unlagged, h.executor_le, ?_,
      h.backpressure_le⟩
    · simp only [batches_append, show batches [.decision d] = [] from rfl, List.append_nil]
      exact h.executed
    · simp only [decisions_append, List.map_append, ← h.committed, List.append_assoc]
      rfl
    · rw [List.length_append]
      exact hroom
  · rename_i x rest houtbox
    obtain rfl := Option.some.inj hstep
    refine ⟨h.all, hrun _ _ houtbox, ?_, ?_, h.signals, h.state, h.taken, h.unlagged, h.executor_le, h.commit_le,
      h.backpressure_le⟩
    · simp only [batches_append, show batches [.signal x] = [] from rfl, List.append_nil]
      exact h.executed
    · simp only [decisions_append, show decisions [.signal x] = [] from rfl, List.append_nil]
      exact h.committed

theorem receiveBatch (h : Consistent delayed events s) (hstep : s.receiveBatch delayed = some s') :
    Consistent delayed events s' := by
  unfold TestNode.receiveBatch at hstep
  split at hstep
  · rename_i b rest hstate hqueue
    obtain rfl := Option.some.inj hstep
    have hexecuted := h.executed
    have hlength := h.executor_le
    have hsignals := h.signals
    rw [hqueue] at hexecuted hlength
    rw [hstate] at hsignals
    refine ⟨h.all, h.run, ?_, h.committed, ?_, fun _ => ?_, h.taken, h.unlagged, Nat.le_of_succ_le hlength,
      h.commit_le, h.backpressure_le⟩
    · rw [List.append_assoc]
      exact hexecuted
    · cases delayed with
      | false => exact hsignals
      | true =>
        simp only [if_true, List.length_append, List.length_singleton] at hsignals ⊢
        exact hsignals
    · cases delayed with
      | false => contradiction
      | true => exact ⟨rfl, List.append_ne_nil_of_right_ne_nil _ (List.cons_ne_nil _ _)⟩
  · cases hstep

/-- A signal comes after those before it. -/
theorem signal (h : Consistent delayed events s) {before after : ExecutorState} {x : BackpressureSignal}
    (hbefore : before ≠ .receiving)
    (hafter : ∀ count, count ≠ 0 → signalled count after = signalled count before ++ [x])
    (hstep : s.signal before after x = some s') : Consistent delayed events s' := by
  unfold TestNode.signal at hstep
  split_ifs at hstep with hguard
  obtain ⟨hstate, hroom⟩ := hguard
  obtain rfl := Option.some.inj hstep
  obtain ⟨hdelayed, hne⟩ := h.state (hstate ▸ hbefore)
  refine ⟨h.all, h.run, h.executed, h.committed, ?_, fun _ => ⟨hdelayed, hne⟩, h.taken, h.unlagged, h.executor_le,
    h.commit_le, ?_⟩
  · have hsignals := h.signals
    rw [if_pos hdelayed, hstate] at hsignals
    rw [if_pos hdelayed, hafter _ (fun hzero => hne (List.length_eq_zero_iff.mp hzero)), ← hsignals,
      List.append_assoc]
  · rw [List.length_append]
    exact hroom

/-- **One action** keeps it. -/
theorem step (h : Consistent delayed events s) {a : NodeAction} (hstep : s.step delayed a = some s') :
    Consistent delayed events s' := by
  cases a with
  | broadcast =>
    simp only [TestNode.step] at hstep
    split at hstep
    · cases hstep
    · rename_i e rest hupcoming
      obtain rfl := Option.some.inj hstep
      refine ⟨?_, h.run, h.executed, h.committed, h.signals, h.state, ?_, fun hle => ?_, h.executor_le, h.commit_le,
        h.backpressure_le⟩
      · rw [← h.all, hupcoming]
        exact List.append_assoc ..
      · rw [Broadcast.passed_send]
        exact h.taken
      · rw [Broadcast.passed_send]
        exact h.unlagged hle
  | takeEvent => exact h.takeEvent hstep
  | takeSignal => exact h.takeSignal hstep
  | send => exact h.send hstep
  | receiveBatch => exact h.receiveBatch hstep
  | slowDown => exact h.signal (by decide) (fun _ _ => rfl) hstep
  | wake =>
    simp only [TestNode.step] at hstep
    split_ifs at hstep with hstate
    obtain rfl := Option.some.inj hstep
    have hsignals := h.signals
    rw [hstate] at hsignals
    exact ⟨h.all, h.run, h.executed, h.committed, hsignals, fun _ => h.state (by rw [hstate]; decide), h.taken,
      h.unlagged, h.executor_le, h.commit_le, h.backpressure_le⟩
  | resume =>
    refine h.signal (by decide) (fun count hcount => ?_) hstep
    obtain ⟨n, rfl⟩ := Nat.exists_eq_succ_of_ne_zero hcount
    simp [signalled, List.replicate_succ']
  | receiveDecision =>
    simp only [TestNode.step] at hstep
    split at hstep
    · cases hstep
    · rename_i d rest hqueue
      obtain rfl := Option.some.inj hstep
      have hcommitted := h.committed
      have hlength := h.commit_le
      rw [hqueue] at hcommitted hlength
      refine ⟨h.all, h.run, h.executed, ?_, h.signals, h.state, h.taken, h.unlagged, h.executor_le,
        Nat.le_of_succ_le hlength, h.backpressure_le⟩
      rw [List.append_assoc]
      exact hcommitted

theorem of_run (h : Consistent delayed events s) {actions : List NodeAction} (hrun : s.run delayed actions = some s') :
    Consistent delayed events s' := by
  induction actions generalizing s with
  | nil =>
    obtain rfl := Option.some.inj hrun
    exact h
  | cons a rest ih =>
    obtain ⟨next, hnext, hrest⟩ := Option.bind_eq_some_iff.mp hrun
    exact ih (h.step hnext) hrest

end Consistent

end DualOptimistic.Node
