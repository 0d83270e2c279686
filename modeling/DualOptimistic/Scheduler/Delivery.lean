import DualOptimistic.Data.Channel
import DualOptimistic.Scheduler.Pipeline
import DualOptimistic.Consensus.NodeRun

/-! Consensus, scheduler and executor, and the channels between them.

A node broadcasts its events, the executor signals and may drop its sender, and the loop of the
scheduler takes an event or a signal whenever it is not waiting to send. The indices of the
final commits a node sends are 1, 2 and so on (`run_hardIndices`), and the loop answers each
final commit it receives under its index. So the decisions delivered are numbered 1 to `k` as
long as no final commit is overtaken in the channel, and the loop goes on as long as it does not
find the executor's channel at its end (`run_delivers`). -/
namespace DualOptimistic.Scheduler
open Data Consensus

/-! ### The indices a node sends -/

/-- The indices of the final commits. -/
def hardIndices (events : List ConsensusEvent) : List Nat :=
  events.filterMap fun e => match e with
    | .softCommit .. => none
    | .hardCommit subdag => some subdag.commitIndex

theorem hardIndices_append (l m : List ConsensusEvent) :
    hardIndices (l ++ m) = hardIndices l ++ hardIndices m :=
  List.filterMap_append ..

theorem hardIndices_soft {events : List ConsensusEvent} (h : ∀ e ∈ events, e.isSoft = true) :
    hardIndices events = [] := by
  refine List.filterMap_eq_nil_iff.mpr fun e he => ?_
  cases e with
  | softCommit round leader txs => rfl
  | hardCommit subdag => cases h _ he

/-- The events number their final commits from `start` on, and the node after them goes on so. -/
def NumbersFrom (start : Nat) (events : List ConsensusEvent) (next : Except Panic Nat) : Prop :=
  ∃ n, hardIndices events = List.range' (start + 1) n ∧ ∀ last, next = .ok last → last = start + n

theorem commitLeader_index {sha3 : List UInt8 → BlockDigest} {dag dag' : DagState} {block : VerifiedBlock}
    {subDag : CommittedSubDag} (h : dag.commitLeader sha3 block = .ok (subDag, dag')) :
    subDag.commitRef.index = dag.lastCommitIndex + 1 ∧ dag'.lastCommitIndex = dag.lastCommitIndex + 1 := by
  unfold DagState.commitLeader at h
  cases hlin : dag.linearizeSubDag block with
  | error p =>
    rw [hlin] at h
    cases h
  | ok result =>
    rw [hlin] at h
    obtain ⟨rfl, rfl⟩ := Prod.mk.inj (Except.ok.inj h)
    exact ⟨rfl, rfl⟩

theorem commitEach_numbers (sha3 : List UInt8 → BlockDigest) (s : HardState) (decided : List DecidedLeader) :
    let hard := HardState.commitEach sha3 s decided
    NumbersFrom s.dag.lastCommitIndex (hard.1.map Emission.event) (hard.2.map fun s => s.dag.lastCommitIndex) := by
  induction decided generalizing s with
  | nil => exact ⟨0, rfl, fun last hlast => (Except.ok.inj hlast).symm⟩
  | cons d rest ih =>
    cases d with
    | skip slot => exact ih _
    | commit block direct =>
      unfold HardState.commitEach
      cases hcommit : s.dag.commitLeader sha3 block with
      | error p => exact ⟨0, rfl, fun last hlast => (by cases hlast)⟩
      | ok result =>
        obtain ⟨subDag, dag⟩ := result
        obtain ⟨hindex, hlast⟩ := commitLeader_index hcommit
        obtain ⟨n, hrest, hnext⟩ := ih ⟨dag, block.slot⟩
        rw [show (HardState.mk dag block.slot).dag.lastCommitIndex = _ from hlast] at hrest hnext
        refine ⟨n + 1, ?_, fun last hok => ?_⟩
        · show (toSharedSubdag subDag).commitIndex :: hardIndices _ = _
          rw [hrest, List.range'_succ]
          exact congrArg (· :: _) hindex
        · rw [hnext last hok, Nat.add_assoc, Nat.add_comm 1 n]

theorem NumbersFrom.append {start : Nat} {soft hard : List ConsensusEvent} {next : Except Panic Nat}
    (h : NumbersFrom start hard next) (hsoft : ∀ e ∈ soft, e.isSoft = true) :
    NumbersFrom start (soft ++ hard) next := by
  obtain ⟨n, hindices, hnext⟩ := h
  refine ⟨n, ?_, hnext⟩
  rw [hardIndices_append, hardIndices_soft hsoft, List.nil_append, hindices]

theorem countSoftVotes_soft (dag : DagState) (leaderRound : Round) (voter : AuthorityIndex)
    (ancestors : List BlockRef) (t : SoftCommitTracker) :
    ∀ e ∈ (dag.countSoftVotes leaderRound voter ancestors t).1, e.isSoft = true := by
  induction ancestors generalizing t with
  | nil => exact fun e he => absurd he List.not_mem_nil
  | cons a rest ih =>
    unfold DagState.countSoftVotes
    dsimp only
    split_ifs with hleader hvote
    · intro e he
      rcases List.mem_cons.mp he with rfl | he
      · rfl
      · exact ih _ e he
    · exact ih _
    · exact ih _

theorem checkSoftCommits_soft (dag : DagState) (blocks : List VerifiedBlock) (t : SoftCommitTracker) :
    ∀ e ∈ (dag.checkSoftCommits blocks t).1, e.isSoft = true := by
  induction blocks generalizing t with
  | nil => exact fun e he => absurd he List.not_mem_nil
  | cons block rest ih =>
    have hfirst : ∀ e ∈ (dag.checkSoftCommit block t).1, e.isSoft = true := by
      unfold DagState.checkSoftCommit
      split_ifs
      · exact fun e he => absurd he List.not_mem_nil
      · exact countSoftVotes_soft dag _ _ _ t
      · exact fun e he => absurd he List.not_mem_nil
    intro e he
    rcases List.mem_append.mp he with he | he
    · exact hfirst e he
    · exact ih _ e he

theorem lastCommitIndex_acceptBlocks (dag : DagState) (blocks : List VerifiedBlock) :
    (dag.acceptBlocks blocks).lastCommitIndex = dag.lastCommitIndex := by
  induction blocks generalizing dag with
  | nil => rfl
  | cons b rest ih => exact ih _

/-- The number of the last commit of a node. -/
def lastIndex (node : ConsensusNode) : Nat := node.manager.dagState.lastCommitIndex

theorem tryHardCommit_numbers (sha3 : List UInt8 → BlockDigest) (node : ConsensusNode) :
    let o := node.tryHardCommit sha3
    NumbersFrom (lastIndex node) o.events (o.node.map lastIndex) := by
  unfold ConsensusNode.tryHardCommit
  split
  · exact ⟨0, rfl, fun last hlast => (by cases hlast)⟩
  · rename_i decided _
    obtain ⟨n, hindices, hnext⟩ :=
      commitEach_numbers sha3 ⟨node.manager.dagState, node.lastDecided⟩ decided
    refine ⟨n, hindices, fun last hlast => hnext last ?_⟩
    dsimp only at hlast
    -- the index of the node is that of its committing half
    generalize (HardState.commitEach sha3 _ decided).2 = hard at hlast ⊢
    cases hard with
    | error p => cases hlast
    | ok s => exact hlast

theorem acceptBlocks_numbers (sha3 : List UInt8 → BlockDigest) (node : ConsensusNode)
    (blocks : List VerifiedBlock) :
    let o := node.acceptBlocks sha3 blocks
    NumbersFrom (lastIndex node) o.events (o.node.map lastIndex) := by
  intro o
  have hindex : (node.manager.tryAcceptBlocks blocks).manager.dagState.lastCommitIndex = lastIndex node := by
    rw [node.manager.tryAcceptBlocks_dagState]
    exact lastCommitIndex_acceptBlocks ..
  rw [← hindex]
  have hevents : ∀ (dag : DagState) (soft : List ConsensusEvent) (hard : List Emission),
      (soft.map (Emission.mk dag) ++ hard).map Emission.event = soft ++ hard.map Emission.event := by
    intro dag soft hard
    rw [List.map_append, List.map_map]
    exact congrArg (· ++ _) (List.map_id _)
  show NumbersFrom _ (List.map Emission.event (_ ++ _)) _
  rw [hevents]
  exact (tryHardCommit_numbers sha3 ⟨_, _, _⟩).append (checkSoftCommits_soft _ _ _)

/-- **A node numbers its final commits** 1, 2 and so on, whatever it is fed. -/
theorem run_hardIndices (sha3 : List UInt8 → BlockDigest) (c : Committee)
    (deliveries : List (List VerifiedBlock)) :
    ∃ n, hardIndices ((ConsensusNode.new sha3 c).run sha3 deliveries).events = List.range' 1 n := by
  have hrun : ∀ node : ConsensusNode,
      ∃ n, hardIndices (node.run sha3 deliveries).events = List.range' (lastIndex node + 1) n := by
    induction deliveries with
    | nil => exact fun node => ⟨0, rfl⟩
    | cons blocks rest ih =>
      intro node
      obtain ⟨n, hindices, hnext⟩ := acceptBlocks_numbers sha3 node blocks
      unfold ConsensusNode.run
      dsimp only
      split
      · exact ⟨n, hindices⟩
      · rename_i next hok
        obtain ⟨m, hmore⟩ := ih next
        rw [hok] at hnext
        have hlast := hnext _ rfl
        rw [hlast] at hmore
        refine ⟨n + m, ?_⟩
        show hardIndices (List.map Emission.event (_ ++ _)) = _
        rw [List.map_append, hardIndices_append, ← List.range'_append_1, Nat.add_right_comm]
        exact congrArg₂ _ hindices hmore
  exact hrun _

/-! ### The system -/

/-- Capacity of the broadcast channel for consensus events. -/
def eventChannelCapacity : Nat := 512

/-- A node, the loop of the scheduler and the executor, as far as their channels go. The commit
receiver is alive; a send that finds its channel full waits in the outbox. -/
structure System where
  /-- What the node has still to broadcast. -/
  upcoming : List ConsensusEvent
  consensus : Broadcast ConsensusEvent
  signals : Mailbox BackpressureSignal
  scheduler : PipelineScheduler
  /-- What the loop is about to send. -/
  outbox : List Output
  sent : List Output
  /-- The loop has not ended. -/
  running : Bool

inductive Action where
  | broadcast
  /-- The executor sends a signal. -/
  | signal (signal : BackpressureSignal)
  /-- The executor drops its sender. -/
  | drop
  /-- There is room for the next thing to send. -/
  | send
  /-- The loop selects the branch of the consensus channel. -/
  | takeEvent
  /-- The loop selects the branch of the executor's channel. -/
  | takeSignal

namespace System

def new (events : List ConsensusEvent) : System := ⟨events, .new, .new, .new, [], [], true⟩

/-- The loop is at its `select`. -/
def selecting (s : System) : Bool := s.running && s.outbox.isEmpty

/-- One action; one that cannot be taken changes nothing. -/
def step (s : System) : Action → System
  | .broadcast => match s.upcoming with
    | [] => s
    | e :: rest => { s with upcoming := rest, consensus := s.consensus.send e }
  | .signal signal => if s.signals.isOpen then { s with signals := s.signals.send signal } else s
  | .drop => { s with signals := s.signals.close }
  | .send => match s.outbox with
    | [] => s
    | o :: rest => { s with outbox := rest, sent := s.sent ++ [o] }
  | .takeEvent =>
    if s.selecting then
      match s.consensus.recv eventChannelCapacity with
      | none => s
      | some (.lagged _, c) => { s with consensus := c }
      | some (.item e, c) =>
        let turn := s.scheduler.step (.event e)
        { s with consensus := c, scheduler := turn.2, outbox := turn.1 }
    else s
  | .takeSignal =>
    if s.selecting then
      match s.signals.recv with
      | none => s
      | some (some signal, m) => { s with signals := m, scheduler := (s.scheduler.step (.signal signal)).2 }
      | some (none, m) => { s with signals := m, running := false }
    else s

def run (s : System) : List Action → System
  | [] => s
  | a :: rest => (s.step a).run rest

/-- The action loses no final commit and does not end the loop: if the loop takes an event, no
final commit was overtaken; if it takes a signal, the executor's channel is not at its end. -/
def Lossless (s : System) : Action → Prop
  | .takeEvent => s.selecting = true → ∀ e ∈ s.consensus.missed eventChannelCapacity, e.isSoft = true
  | .takeSignal => s.selecting = true → s.signals.queue ≠ [] ∨ s.signals.isOpen = true
  | _ => True

instance (s : System) (a : Action) : Decidable (s.Lossless a) :=
  match a with
  | .takeEvent => inferInstanceAs (Decidable (_ → _))
  | .takeSignal => inferInstanceAs (Decidable (_ → _))
  | .broadcast | .signal _ | .drop | .send => inferInstanceAs (Decidable True)

/-- Every action of the run is lossless. -/
def LosslessRun (s : System) : List Action → Prop
  | [] => True
  | a :: rest => s.Lossless a ∧ (s.step a).LosslessRun rest

instance decidableLosslessRun : (s : System) → (actions : List Action) → Decidable (s.LosslessRun actions)
  | _, [] => inferInstanceAs (Decidable True)
  | s, a :: rest => @instDecidableAnd _ _ _ (decidableLosslessRun (s.step a) rest)

end System

/-- The indices of the decisions. -/
def decisionIndices (outputs : List Output) : List Nat :=
  outputs.filterMap fun o => match o with
    | .decision d => some d.commitIndex
    | _ => none

theorem decisionIndices_append (l m : List Output) :
    decisionIndices (l ++ m) = decisionIndices l ++ decisionIndices m :=
  List.filterMap_append ..

/-- A turn of the loop answers the final commit it takes. -/
theorem decisionIndices_step (s : PipelineScheduler) (e : ConsensusEvent) :
    decisionIndices (s.step (.event e)).1 = hardIndices [e] := by
  cases e with
  | softCommit round leader txs =>
    refine List.filterMap_eq_nil_iff.mpr fun o ho => ?_
    cases o with
    | batch b => rfl
    | decision d => exact absurd ho PipelineScheduler.decision_not_mem_soft
    | signal signal => rfl
  | hardCommit subdag =>
    show [(s.handleHardCommit subdag).1.commitIndex] = [subdag.commitIndex]
    rw [PipelineScheduler.handleHardCommit_commitIndex]

/-! ### One action -/

/-- From `s` to `s'` the loop has passed by some events, and answers some. -/
structure Advance (s s' : System) (passed answered : List ConsensusEvent) : Prop where
  all : s'.consensus.sent ++ s'.upcoming = s.consensus.sent ++ s.upcoming
  passed : s'.consensus.passed = s.consensus.passed ++ passed
  answered : decisionIndices (s'.sent ++ s'.outbox) = decisionIndices (s.sent ++ s.outbox) ++ hardIndices answered

theorem Advance.stay {s s' : System} (hall : s'.consensus.sent ++ s'.upcoming = s.consensus.sent ++ s.upcoming)
    (hpassed : s'.consensus.passed = s.consensus.passed) (hsent : s'.sent ++ s'.outbox = s.sent ++ s.outbox) :
    Advance s s' [] [] where
  all := hall
  passed := hpassed.trans (List.append_nil _).symm
  answered := by
    rw [hsent]
    exact (List.append_nil _).symm

/-- **Taking an event**: it is answered, unless the loop learns that it has missed some. -/
theorem step_takeEvent (s : System) : ∃ passed answered, Advance s (s.step .takeEvent) passed answered ∧
    (answered = passed ∨ s.selecting = true ∧ answered = [] ∧
      passed = s.consensus.missed eventChannelCapacity) := by
  unfold System.step
  dsimp only
  split_ifs with hsel
  · have hempty : s.outbox = [] := List.isEmpty_iff.mp (Bool.and_eq_true_iff.mp hsel).2
    split
    · exact ⟨[], [], .stay rfl rfl rfl, .inl rfl⟩
    · rename_i n c hrecv
      obtain ⟨hsent, ⟨m, -, hpassed⟩ | ⟨x, hx, -⟩⟩ := Broadcast.recv_passed hrecv
      · refine ⟨_, [], ⟨?_, hpassed, (List.append_nil _).symm⟩, .inr ⟨hsel, rfl, rfl⟩⟩
        rw [hsent]
      · cases hx
    · rename_i e c hrecv
      obtain ⟨hsent, ⟨m, hm, -⟩ | ⟨x, hx, hpassed⟩⟩ := Broadcast.recv_passed hrecv
      · cases hm
      · obtain rfl := Received.item.inj hx
        refine ⟨[e], [e], ⟨?_, hpassed, ?_⟩, .inl rfl⟩
        · rw [hsent]
        · rw [decisionIndices_append, hempty, List.append_nil]
          exact congrArg _ (decisionIndices_step s.scheduler e)
  · exact ⟨[], [], .stay rfl rfl rfl, .inl rfl⟩

theorem step_other (s : System) {a : Action} (ha : a ≠ .takeEvent) : Advance s (s.step a) [] [] := by
  cases a with
  | broadcast =>
    unfold System.step
    dsimp only
    split
    · exact .stay rfl rfl rfl
    · rename_i e rest hupcoming
      refine .stay ?_ (Broadcast.passed_send ..) rfl
      rw [hupcoming]
      exact List.append_assoc ..
  | signal signal =>
    unfold System.step
    dsimp only
    split_ifs
    · exact .stay rfl rfl rfl
    · exact .stay rfl rfl rfl
  | drop => exact .stay rfl rfl rfl
  | send =>
    unfold System.step
    dsimp only
    split
    · exact .stay rfl rfl rfl
    · rename_i o rest houtbox
      refine .stay rfl rfl ?_
      rw [houtbox]
      exact List.append_assoc ..
  | takeEvent => exact absurd rfl ha
  | takeSignal =>
    unfold System.step
    dsimp only
    split_ifs
    · split
      · exact .stay rfl rfl rfl
      · exact .stay rfl rfl rfl
      · exact .stay rfl rfl rfl
    · exact .stay rfl rfl rfl

/-- **The loop ends** when it takes the end of the executor's channel, and not otherwise. -/
theorem running_step (s : System) (a : Action) : (s.step a).running = true ↔ s.running = true ∧
    (a = .takeSignal → s.selecting = true → s.signals.queue ≠ [] ∨ s.signals.isOpen = true) := by
  have hother : a ≠ .takeSignal → (s.step a).running = s.running := by
    intro ha
    cases a with
    | broadcast =>
      unfold System.step
      dsimp only
      split <;> rfl
    | signal signal =>
      unfold System.step
      dsimp only
      split_ifs <;> rfl
    | drop => rfl
    | send =>
      unfold System.step
      dsimp only
      split <;> rfl
    | takeEvent =>
      unfold System.step
      dsimp only
      split_ifs
      · split <;> rfl
      · rfl
    | takeSignal => exact absurd rfl ha
  by_cases ha : a = .takeSignal
  · subst ha
    unfold System.step
    dsimp only
    by_cases hsel : s.selecting = true
    · have hrunning : s.running = true := (Bool.and_eq_true_iff.mp hsel).1
      rw [if_pos hsel]
      unfold Mailbox.recv
      cases hqueue : s.signals.queue with
      | cons signal rest => simp [hrunning]
      | nil =>
        cases hopen : s.signals.isOpen with
        | true => simp [hrunning]
        | false => simp [hsel]
    · rw [if_neg hsel]
      exact ⟨fun h => ⟨h, fun _ h' => absurd h' hsel⟩, fun h => h.1⟩
  · rw [hother ha]
    exact ⟨fun h => ⟨h, fun h' => absurd h' ha⟩, fun h => h.1⟩

/-! ### Runs of the system -/

/-- The loop goes on, and what it has sent or is about to send answers what it has passed by. -/
structure Delivers (events : List ConsensusEvent) (s : System) : Prop where
  all : s.consensus.sent ++ s.upcoming = events
  answered : decisionIndices (s.sent ++ s.outbox) = hardIndices s.consensus.passed
  running : s.running = true

/-- A lossless action keeps the delivery. -/
theorem Delivers.step {events : List ConsensusEvent} {s : System} (h : Delivers events s) {a : Action}
    (hloss : s.Lossless a) : Delivers events (s.step a) := by
  have hadvance : ∃ passed answered, Advance s (s.step a) passed answered ∧
      hardIndices answered = hardIndices passed := by
    by_cases ha : a = .takeEvent
    · subst ha
      obtain ⟨passed, answered, hadvance, rfl | ⟨hsel, rfl, rfl⟩⟩ := step_takeEvent s
      · exact ⟨_, _, hadvance, rfl⟩
      · exact ⟨_, _, hadvance, (hardIndices_soft (hloss hsel)).symm⟩
    · exact ⟨_, _, step_other s ha, rfl⟩
  obtain ⟨passed, answered, hadvance, heq⟩ := hadvance
  refine ⟨hadvance.all.trans h.all, ?_, (running_step s a).mpr ⟨h.running, fun ha => ?_⟩⟩
  · rw [hadvance.answered, hadvance.passed, hardIndices_append, h.answered, heq]
  · subst ha
    exact hloss

theorem Delivers.run {events : List ConsensusEvent} {s : System} (h : Delivers events s)
    {actions : List Action} (hloss : s.LosslessRun actions) : Delivers events (s.run actions) := by
  induction actions generalizing s with
  | nil => exact h
  | cons a rest ih => exact ih (h.step hloss.1) hloss.2

theorem passed_isPrefix {events : List ConsensusEvent} {s : System}
    (h : s.consensus.sent ++ s.upcoming = events) : s.consensus.passed <+: events := by
  rw [← h]
  exact (List.take_prefix ..).trans (List.prefix_append ..)

theorem passed_nodup {events : List ConsensusEvent} {s : System} (honce : (hardIndices events).Nodup)
    (h : s.consensus.sent ++ s.upcoming = events) : (hardIndices s.consensus.passed).Nodup :=
  ((passed_isPrefix h).filterMap _).sublist.nodup honce

/-- The final commit with the index was passed by and not answered. -/
structure Lost (events : List ConsensusEvent) (index : Nat) (s : System) : Prop where
  all : s.consensus.sent ++ s.upcoming = events
  passed : index ∈ hardIndices s.consensus.passed
  unanswered : index ∉ decisionIndices (s.sent ++ s.outbox)

/-- What is lost stays lost. -/
theorem Lost.run {events : List ConsensusEvent} (honce : (hardIndices events).Nodup) {index : Nat} {s : System}
    (h : Lost events index s) (actions : List Action) : Lost events index (s.run actions) := by
  induction actions generalizing s with
  | nil => exact h
  | cons a rest ih =>
    have hadvance : ∃ passed answered, Advance s (s.step a) passed answered ∧
        (answered = passed ∨ answered = []) := by
      by_cases ha : a = .takeEvent
      · subst ha
        obtain ⟨passed, answered, hadvance, heq | ⟨-, hnil, -⟩⟩ := step_takeEvent s
        · exact ⟨_, _, hadvance, .inl heq⟩
        · exact ⟨_, _, hadvance, .inr hnil⟩
      · exact ⟨_, _, step_other s ha, .inl rfl⟩
    obtain ⟨passed, answered, hadvance, hone⟩ := hadvance
    refine ih ⟨hadvance.all.trans h.all, ?_, ?_⟩
    · rw [hadvance.passed, hardIndices_append]
      exact List.mem_append_left _ h.passed
    · rw [hadvance.answered]
      intro hmem
      rcases List.mem_append.mp hmem with hmem | hmem
      · exact h.unanswered hmem
      · rcases hone with rfl | rfl
        · -- the node has no second final commit of the index
          have hnodup := passed_nodup honce (hadvance.all.trans h.all)
          rw [hadvance.passed, hardIndices_append] at hnodup
          exact (List.nodup_append.mp hnodup).2.2 index h.passed index hmem rfl
        · exact absurd hmem List.not_mem_nil

theorem running_run_false {s : System} (h : s.running = false) (actions : List Action) :
    (s.run actions).running = false := by
  induction actions generalizing s with
  | nil => exact h
  | cons a rest ih =>
    refine ih (Bool.eq_false_iff.mpr fun htrue => ?_)
    exact absurd ((running_step s a).mp htrue).1 (ne_true_of_eq_false h)

/-- An action that is not lossless ends the loop or loses a final commit. -/
theorem Delivers.break {events : List ConsensusEvent} {s : System} (honce : (hardIndices events).Nodup)
    (h : Delivers events s) {a : Action} (hloss : ¬ s.Lossless a) :
    (s.step a).running = false ∨ ∃ index, Lost events index (s.step a) := by
  cases a with
  | broadcast => exact absurd trivial hloss
  | signal signal => exact absurd trivial hloss
  | drop => exact absurd trivial hloss
  | send => exact absurd trivial hloss
  | takeSignal =>
    refine .inl (Bool.eq_false_iff.mpr fun htrue => hloss ?_)
    exact ((running_step s .takeSignal).mp htrue).2 rfl
  | takeEvent =>
    refine .inr ?_
    obtain ⟨hsel, hmissed⟩ := Classical.not_imp.mp hloss
    push Not at hmissed
    obtain ⟨e, he, hhard⟩ := hmissed
    obtain ⟨n, c, hrecv⟩ := Broadcast.recv_lagged (List.ne_nil_of_mem he)
    have hstep : s.step .takeEvent = { s with consensus := c } := by
      unfold System.step
      dsimp only
      rw [if_pos hsel, hrecv]
    obtain ⟨hsent, ⟨m, -, hpassed⟩ | ⟨x, hx, -⟩⟩ := Broadcast.recv_passed hrecv
    · cases e with
      | softCommit round leader txs => exact absurd rfl hhard
      | hardCommit subdag =>
        have hmem : subdag.commitIndex ∈ hardIndices (s.consensus.missed eventChannelCapacity) :=
          List.mem_filterMap.mpr ⟨_, he, rfl⟩
        have hall : c.sent ++ s.upcoming = events := hsent ▸ h.all
        refine ⟨subdag.commitIndex, ?_⟩
        rw [hstep]
        refine ⟨hall, ?_, fun hanswered => ?_⟩
        · rw [hpassed, hardIndices_append]
          exact List.mem_append_right _ hmem
        · have hanswered : subdag.commitIndex ∈ decisionIndices (s.sent ++ s.outbox) := hanswered
          have hnodup := @passed_nodup _ { s with consensus := c } honce hall
          rw [h.answered] at hanswered
          rw [hpassed, hardIndices_append] at hnodup
          exact (List.nodup_append.mp hnodup).2.2 _ hanswered _ hmem rfl
    · cases hx

/-- **No final commit is lost or sent twice**, in every interleaving of a node that was fed
anything, an executor and the loop whose actions are lossless: the decisions sent are numbered
1 to `k` in order, and the loop goes on. An action that is not lossless ends the loop, or loses
a final commit for good. -/
theorem run_delivers (sha3 : List UInt8 → BlockDigest) (c : Committee) (deliveries : List (List VerifiedBlock))
    {actions : List Action} :
    let start := System.new ((ConsensusNode.new sha3 c).run sha3 deliveries).events
    let s := start.run actions
    start.LosslessRun actions →
      ((∃ k, decisionIndices s.sent = List.range' 1 k) ∧ s.running = true) ∧
      ∀ a, ¬ s.Lossless a → (∀ more, ((s.step a).run more).running = false) ∨
        ∃ index ∈ hardIndices (s.step a).consensus.sent, ∀ more, index ∉ decisionIndices ((s.step a).run more).sent := by
  intro start s hloss
  obtain ⟨n, hindices⟩ := run_hardIndices sha3 c deliveries
  have hstart : Delivers ((ConsensusNode.new sha3 c).run sha3 deliveries).events start := ⟨rfl, rfl, rfl⟩
  have hrun : Delivers _ s := hstart.run hloss
  refine ⟨⟨?_, hrun.running⟩, fun a hbreak => ?_⟩
  · -- the decisions sent are a first part of the indices of the node
    have hsent : decisionIndices s.sent <+: List.range' 1 n := by
      rw [← hindices]
      refine List.IsPrefix.trans ?_ ((passed_isPrefix hrun.all).filterMap _)
      rw [show List.filterMap _ s.consensus.passed = _ from hrun.answered.symm, decisionIndices_append]
      exact List.prefix_append ..
    have hlength : (decisionIndices s.sent).length ≤ n := by
      have hle := hsent.length_le
      rwa [List.length_range'] at hle
    exact ⟨_, (List.prefix_iff_eq_take.mp hsent).trans (List.take_range'_of_length_ge hlength)⟩
  · have honce : (hardIndices ((ConsensusNode.new sha3 c).run sha3 deliveries).events).Nodup := by
      rw [hindices]
      exact List.nodup_range'
    rcases hrun.break honce hbreak with hstop | ⟨index, hlost⟩
    · exact .inl (running_run_false hstop)
    · refine .inr ⟨index, ?_, fun more hmem => ?_⟩
      · exact ((List.take_sublist ..).filterMap _).subset hlost.passed
      · refine (hlost.run honce more).unanswered ?_
        rw [decisionIndices_append]
        exact List.mem_append_left _ hmem

/-- The third link of a chain is committed; the executor drops its sender while a signal is on
its way. -/
theorem run_delivers_chain :
    let start := System.new ((ConsensusNode.new (fun _ => 0) (Committee.equal 0)).run (fun _ => 0)
      [[link 0, link 1, link 2, link 3, link 4]]).events
    let actions : List Action := [.signal .resume, .broadcast, .broadcast, .takeEvent, .drop, .send, .takeEvent,
      .takeSignal, .send]
    start.LosslessRun actions ∧ decisionIndices (start.run actions).sent = [1] ∧
      (start.run actions).running = true := by
  intro start actions
  have hloss : start.LosslessRun actions := by decide +kernel
  have hrun := run_delivers (fun _ => 0) (Committee.equal 0) [[link 0, link 1, link 2, link 3, link 4]] hloss
  exact ⟨hloss, by decide +kernel, hrun.1.2⟩

/-- The executor drops its sender: the loop ends, and never takes the commit of the node. -/
theorem dropped_sender_ends_loop :
    let events := ((ConsensusNode.new (fun _ => 0) (Committee.equal 0)).run (fun _ => 0)
      [[link 0, link 1, link 2, link 3, link 4]]).events
    let s := (System.new events).run [.drop, .takeSignal, .broadcast, .broadcast, .takeEvent, .send, .takeEvent, .send]
    hardIndices s.consensus.sent = [1] ∧ decisionIndices s.sent = [] ∧ s.running = false := by
  decide +kernel

end DualOptimistic.Scheduler
