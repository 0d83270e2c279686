import DualOptimistic.Node.Progress
import DualOptimistic.Consensus.Liveness

/-! Replicas of the wired node.

Each replica has a consensus node, fed blocks of one universe in some causal order and batching,
and a pipeline behind it that runs in some interleaving, with or without an executor delay. What
their consensus nodes commit are first parts of one log, and the scheduler answers the final
commits it takes one by one, each with its index, its round and, where it is to be executed
afresh, its transactions. So the decisions of all replicas answer entries of one log, in the order
of the log (`replicas_share_log`). -/
namespace DualOptimistic.Node
open Data Consensus Scheduler

/-! ### One log -/

/-- Of finitely many lists that are prefixes of each other, one has all others as prefixes. -/
theorem exists_longest {ι α : Type} (f : ι → List α) {l : List ι} (hne : l ≠ [])
    (h : ∀ i ∈ l, ∀ j ∈ l, f i <+: f j ∨ f j <+: f i) : ∃ i ∈ l, ∀ j ∈ l, f j <+: f i := by
  induction l with
  | nil => exact absurd rfl hne
  | cons i rest ih =>
    cases rest with
    | nil =>
      refine ⟨i, List.mem_cons_self .., fun j hj => ?_⟩
      rw [List.mem_singleton.mp hj]
    | cons j rest =>
      obtain ⟨k, hk, hlongest⟩ := ih (List.cons_ne_nil _ _) fun a ha b hb =>
        h a (List.mem_cons_of_mem _ ha) b (List.mem_cons_of_mem _ hb)
      rcases h i (List.mem_cons_self ..) k (List.mem_cons_of_mem _ hk) with hpre | hpre
      · exact ⟨k, List.mem_cons_of_mem _ hk, List.forall_mem_cons.mpr ⟨hpre, hlongest⟩⟩
      · refine ⟨i, List.mem_cons_self .., List.forall_mem_cons.mpr ⟨List.prefix_rfl, ?_⟩⟩
        exact fun m hm => (hlongest m hm).trans hpre

/-! ### What a decision answers -/

/-- The decision answers the final commit: it confirms its round, or asks for its transactions. -/
def Answers (subdag : OurCommittedSubDag) (decision : CommitDecision) : Prop :=
  decision = .commit subdag.commitIndex subdag.leader.round ∨
    decision = .freshBatch ⟨subdag.leader.round, subdag.commitIndex, subdag.txs, false⟩

theorem decisions_soft (s : PipelineScheduler) (round : Round) (txs : List EthSignedTx) :
    decisions (s.handleSoftCommit round txs).1 = [] := by
  refine List.filterMap_eq_nil_iff.mpr fun o ho => ?_
  cases o with
  | batch b => rfl
  | decision d => exact absurd ho PipelineScheduler.decision_not_mem_soft
  | signal x => rfl

/-- One turn of the loop answers the final commit it takes. -/
theorem answers_step (s : PipelineScheduler) (input : Input) :
    List.Forall₂ Answers (hardCommits (consensusEvents [input])) (decisions (s.step input).1) := by
  cases input with
  | signal x => exact .nil
  | event e =>
    cases e with
    | softCommit round leader txs =>
      show List.Forall₂ Answers [] (decisions (s.handleSoftCommit round txs).1)
      rw [decisions_soft]
      exact .nil
    | hardCommit subdag =>
      show List.Forall₂ Answers [subdag] [(s.handleHardCommit subdag).1]
      refine .cons ?_ .nil
      rcases (s.handleHardCommit_cases subdag).2 with hfresh | ⟨hcommit, -⟩
      · exact .inr hfresh
      · exact .inl hcommit

/-- **A run answers the final commits it takes**, in order. -/
theorem answers_run (s : PipelineScheduler) (inputs : List Input) :
    List.Forall₂ Answers (hardCommits (consensusEvents inputs)) (decisions (s.run inputs).1) := by
  induction inputs generalizing s with
  | nil => exact .nil
  | cons input rest ih =>
    rw [← List.singleton_append, consensusEvents_append, hardCommits_append, PipelineScheduler.run_append,
      decisions_append]
    refine List.rel_append ?_ (ih _)
    show List.Forall₂ Answers _ (decisions ((s.step input).1 ++ []))
    rw [List.append_nil]
    exact answers_step s input

/-- What the loop has sent answers a first part of the final commits it has taken. -/
theorem Consistent.answers {delayed : Bool} {events : List ConsensusEvent} {s : TestNode}
    (h : Consistent delayed events s) : ∃ answered, answered <+: hardCommits (consensusEvents s.taken) ∧
      List.Forall₂ Answers answered (decisions s.sent) ∧
      (s.outbox = [] → answered = hardCommits (consensusEvents s.taken)) := by
  have hanswers := answers_run .new s.taken
  rw [h.run, decisions_append] at hanswers
  refine ⟨_, List.take_prefix (decisions s.sent).length _, ?_, fun hempty => ?_⟩
  · have htake := List.forall₂_take (decisions s.sent).length hanswers
    rwa [List.take_left] at htake
  · rw [hempty] at hanswers
    apply List.take_of_length_le
    rw [hanswers.length_eq]
    exact (congrArg List.length (List.append_nil _)).le

/-! ### The replicas -/

/-- A replica: what its consensus node was fed, and a run of the pipeline behind it. -/
structure Replica (sha3 : List UInt8 → BlockDigest) {c : Committee} (U : Universe c) where
  batches : List (List VerifiedBlock)
  delayed : Bool
  actions : List NodeAction
  state : TestNode
  fed : ∀ b ∈ batches.flatten, U.Has b
  causal : (DagState.new sha3 c).CausalOrder (BlockManager.processed batches)
  ran : (TestNode.new ((ConsensusNode.new sha3 c).run sha3 batches).events).run delayed actions = some state

section
variable {sha3 : List UInt8 → BlockDigest} {c : Committee} {U : Universe c}

namespace Replica

/-- What its consensus node broadcasts. -/
def events (r : Replica sha3 U) : List ConsensusEvent := ((ConsensusNode.new sha3 c).run sha3 r.batches).events

/-- The decisions sent to its commit wrapper. -/
def decided (r : Replica sha3 U) : List CommitDecision := decisions r.state.sent

/-- **What it has decided** answers, in order, final commits of its node; all of them up to some
point if the channel keeps all events; and simply all once everything is delivered. -/
theorem answers (r : Replica sha3 U) : ∃ answered, answered.Sublist (hardCommits r.events) ∧
    List.Forall₂ Answers answered r.decided ∧
    (r.events.length ≤ eventChannelCapacity → answered <+: hardCommits r.events ∧
      (Finished r.state → answered = hardCommits r.events)) := by
  have hconsistent := (consistent_new r.delayed r.events).of_run r.ran
  obtain ⟨answered, hfirst, hanswers, hall⟩ := hconsistent.answers
  have hpassed : r.state.consensus.passed <+: r.events := by
    rw [← hconsistent.all]
    exact (List.take_prefix ..).trans (List.prefix_append ..)
  refine ⟨answered, ?_, hanswers, fun hevents => ⟨?_, fun hfinished => ?_⟩⟩
  · exact (hfirst.sublist.trans (hconsistent.taken.filterMap _)).trans (hpassed.sublist.filterMap _)
  · refine hfirst.trans ?_
    rw [hconsistent.unlagged hevents]
    exact hpassed.filterMap _
  · rw [hall hfinished.outbox, hconsistent.unlagged hevents, ← hconsistent.all, hfinished.upcoming, List.append_nil,
      Broadcast.passed, hfinished.position, List.take_length]

end Replica

/-- **Replicas share one log.** Fed blocks of one universe, of quorum parents and with no reference
listed twice, each in its own causal order and batching, and run each in its own interleaving,
delayed or not, there is one log of final commits, numbered from 1 and of increasing rounds, such
that every replica's decisions answer entries of it, in order. A replica whose channel keeps all
events has answered a first part of it, and, once everything is delivered, all that its node has
committed. -/
theorem replicas_share_log (hdistinct : U.Distinct) (hparents : U.QuorumParents) (replicas : List (Replica sha3 U)) :
    ∃ log : List OurCommittedSubDag, log.map OurCommittedSubDag.commitIndex = List.range' 1 log.length ∧
      log.Pairwise (fun s s' => s.leader.round < s'.leader.round) ∧
      ∀ r ∈ replicas, hardCommits r.events <+: log ∧
        r.state.commitEvents <+: r.decided.map commitEvent ∧
        ∃ answered, answered.Sublist log ∧ List.Forall₂ Answers answered r.decided ∧
          (r.events.length ≤ eventChannelCapacity → answered <+: log ∧
            (Finished r.state → answered = hardCommits r.events)) := by
  cases hne : replicas with
  | nil => exact ⟨[], rfl, .nil, fun r hr => absurd hr List.not_mem_nil⟩
  | cons first rest =>
    rw [← hne]
    have hcompare : ∀ r ∈ replicas, ∀ r' ∈ replicas,
        hardCommits r.events <+: hardCommits r'.events ∨ hardCommits r'.events <+: hardCommits r.events :=
      fun r _ r' _ => (commits_agree hdistinct hparents r.fed r'.fed r.causal r'.causal).1
    obtain ⟨longest, hmem, hlongest⟩ :=
      exists_longest (fun r => hardCommits r.events) (hne ▸ List.cons_ne_nil _ _) hcompare
    obtain ⟨-, -, -, -, -, -, -, hindices, hrounds⟩ :=
      run_reaches hdistinct hparents longest.fed longest.causal
    refine ⟨hardCommits longest.events, hindices, hrounds, fun r hr => ⟨hlongest r hr, ?_, ?_⟩⟩
    · rw [Replica.decided, ← ((consistent_new r.delayed r.events).of_run r.ran).committed]
      exact List.prefix_append ..
    · obtain ⟨answered, hsublist, hanswers, hkept⟩ := r.answers
      refine ⟨answered, hsublist.trans (hlongest r hr).sublist, hanswers, fun hevents => ?_⟩
      exact ⟨(hkept hevents).1.trans (hlongest r hr), (hkept hevents).2⟩

end

/-- Both waves are broadcast at once, and the loop takes events only. -/
def prompt : List NodeAction :=
  [.broadcast, .broadcast, .broadcast, .broadcast, .takeEvent, .send, .takeEvent, .send, .takeEvent, .send, .takeEvent,
    .send]

/-- The executor slows the loop down, which is then behind with the second wave. -/
def behind : List NodeAction :=
  [.broadcast, .takeEvent, .send, .receiveBatch, .slowDown, .takeSignal, .broadcast, .takeEvent, .send, .receiveDecision,
    .broadcast]

/-- Two replicas that were sent the chain, one at once and one link by link: the second is one
decision behind. -/
theorem replicas_share_log_chain : ∃ r r' : Replica (fun _ => 0) twoWaves,
    r.decided = [.commit 1 3, .commit 2 6] ∧ r'.decided = [.commit 1 3] ∧
      ∃ log : List OurCommittedSubDag, log.map OurCommittedSubDag.commitIndex = List.range' 1 log.length ∧
        ∀ x ∈ [r, r'], ∃ answered, answered.Sublist log ∧ List.Forall₂ Answers answered x.decided := by
  have hstates : ∀ (batches : List (List VerifiedBlock)) (delayed : Bool) (actions : List NodeAction)
      (expected : List CommitDecision),
      ((TestNode.new ((ConsensusNode.new (fun _ => 0) (Committee.equal 0)).run (fun _ => 0) batches).events).run delayed
        actions).map (fun s => decisions s.sent) = some expected →
      ∃ s, (TestNode.new ((ConsensusNode.new (fun _ => 0) (Committee.equal 0)).run (fun _ => 0) batches).events).run
        delayed actions = some s ∧ decisions s.sent = expected :=
    fun _ _ _ _ h => Option.map_eq_some_iff.mp h
  obtain ⟨s, hrun, hdecided⟩ := hstates [eightLinks] false prompt [.commit 1 3, .commit 2 6] (by decide +kernel)
  obtain ⟨s', hrun', hdecided'⟩ := hstates (eightLinks.map fun b => [b]) true behind [.commit 1 3] (by decide +kernel)
  let r : Replica (fun _ => 0) twoWaves :=
    ⟨[eightLinks], false, prompt, s, by decide +kernel, by decide +kernel, hrun⟩
  let r' : Replica (fun _ => 0) twoWaves :=
    ⟨eightLinks.map fun b => [b], true, behind, s', by decide +kernel, by decide +kernel, hrun'⟩
  obtain ⟨log, hindices, -, hshared⟩ := replicas_share_log twoWaves_distinct twoWaves_parents [r, r']
  refine ⟨r, r', hdecided, hdecided', log, hindices, fun x hx => ?_⟩
  obtain ⟨-, -, answered, hsublist, hanswers, -⟩ := hshared x hx
  exact ⟨answered, hsublist, hanswers⟩

end DualOptimistic.Node
