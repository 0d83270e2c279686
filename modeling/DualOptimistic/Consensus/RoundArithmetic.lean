import DualOptimistic.Data.Machine
import DualOptimistic.Consensus.Clock
import DualOptimistic.Consensus.CommitPath

/-! The arithmetic on rounds in a run of the node.

Rounds are `u32` and nothing bounds those of the blocks. For each function `f` on the way of a
call, `fOps` lists the additions, subtractions and multiplications it makes, in their order and
on their operands; the saturating and the wrapping ones of the source are none of these. The
committer stays in range because it tries no leader later than two rounds below the highest
block, and the last round is a leader round: where it computes three past a leader, that is the
last round at most (`tryDecideOps_fit`). The clock has no such slack: it counts one past a block of any
round, and leaves the range exactly where a block of the last round completes a quorum
(`run_fits_iff`). -/
namespace DualOptimistic.Consensus
open Data

inductive RoundOp where
  | add (a b : Nat)
  | sub (a b : Nat)
  | mul (a b : Nat)
deriving DecidableEq

/-- The result is a `u32`. -/
def RoundOp.Fits : RoundOp → Prop
  | add a b => a + b < u32Size
  | sub a b => b ≤ a
  | mul a b => a * b < u32Size

def AllFit (ops : List RoundOp) : Prop := ∀ op ∈ ops, op.Fits

@[simp] theorem allFit_nil : AllFit [] := fun _ h => absurd h List.not_mem_nil

@[simp] theorem allFit_cons {op : RoundOp} {ops : List RoundOp} : AllFit (op :: ops) ↔ op.Fits ∧ AllFit ops :=
  List.forall_mem_cons

@[simp] theorem allFit_append {ops ops' : List RoundOp} : AllFit (ops ++ ops') ↔ AllFit ops ∧ AllFit ops' :=
  List.forall_mem_append

/-! ### What a call computes -/

/-- `add_block` counts one past the block's round if it completes a quorum. -/
def ThresholdClock.addBlockOps (clock : ThresholdClock) (c : Committee) (block : BlockRef) : List RoundOp :=
  if block.round < clock.round then []
  else if block.round = clock.round then
    if (clock.aggregator.add block.author c).1 then [.add block.round 1] else []
  else if (clock.aggregator.clear.add block.author c).1 then [.add block.round 1] else []

namespace BaseCommitterOptions
variable (o : BaseCommitterOptions)

def leaderRoundOps (wave : WaveNumber) : List RoundOp :=
  [.mul wave o.waveLength, .add (wave * o.waveLength) o.roundOffset]

def decisionRoundOps (wave : WaveNumber) : List RoundOp :=
  [.mul wave o.waveLength, .add (wave * o.waveLength) o.waveLength, .sub (wave * o.waveLength + o.waveLength) 1,
    .add (wave * o.waveLength + o.waveLength - 1) o.roundOffset]

def electLeaderOps (round : Round) : List RoundOp := o.leaderRoundOps (o.waveNumber round)

end BaseCommitterOptions

/-- The block of a voting round looks one round back. -/
def VerifiedBlock.checkSoftCommitOps (block : VerifiedBlock) : List RoundOp :=
  if block.round < 2 then [] else [.sub block.round 1]

namespace DagState
variable (dag : DagState)

def acceptBlocksOps (dag : DagState) : List VerifiedBlock → List RoundOp
  | [] => []
  | b :: rest =>
    dag.thresholdClock.addBlockOps dag.committee b.reference ++ (dag.acceptBlock b).acceptBlocksOps rest

/-- The end of the range of the round. -/
def getUncommittedBlocksAtRoundOps (round : Round) : List RoundOp := [.add round 1]

/-- The voting round and the blocks at it; then, if there is not enough blame, the decision round,
and the blocks at it for every leader block. -/
def tryDirectDecideOps (o : BaseCommitterOptions) (leader : Slot) : List RoundOp :=
  .add leader.round 1 :: getUncommittedBlocksAtRoundOps (leader.round + 1) ++
    if dag.enoughLeaderBlame (leader.round + 1) leader.authority then []
    else o.decisionRoundOps (o.waveNumber leader.round) ++
      (dag.getUncommittedBlocksAtSlot leader).flatMap fun _ =>
        getUncommittedBlocksAtRoundOps (o.decisionRound (o.waveNumber leader.round))

/-- The filter on anchors, for as many as are looked at, and the decision round if one decides. -/
def tryIndirectDecideOps (o : BaseCommitterOptions) (leaderSlot : Slot) : List LeaderStatus → List RoundOp
  | [] => []
  | anchor :: rest => .add leaderSlot.round o.waveLength ::
    if leaderSlot.round + o.waveLength ≤ anchor.round then
      match anchor with
      | .commit _ => o.decisionRoundOps (o.waveNumber leaderSlot.round)
      | .skip _ => tryIndirectDecideOps o leaderSlot rest
      | .undecided _ => []
    else tryIndirectDecideOps o leaderSlot rest

def decideSlotOps (o : BaseCommitterOptions) (slot : Slot) (leaders : List (LeaderStatus × Decision)) :
    List RoundOp :=
  dag.tryDirectDecideOps o slot ++
    match dag.tryDirectDecide o slot with
    | .ok status => if status.isDecided then [] else tryIndirectDecideOps o slot (leaders.map Prod.fst)
    | .error _ => []

def decideRoundOps (lastDecided : Slot) (round : Round) :
    List BaseCommitterOptions → List (LeaderStatus × Decision) → List RoundOp
  | [], _ => []
  | o :: rest, leaders =>
    o.electLeaderOps round ++
      match electLeader dag.committee o round with
      | none => decideRoundOps lastDecided round rest leaders
      | some slot =>
        if slot = lastDecided then []
        else dag.decideSlotOps o slot leaders ++
          match dag.decideSlot o slot leaders with
          | .ok decided => decideRoundOps lastDecided round rest (decided :: leaders)
          | .error _ => []

def decideRoundsOps (committers : List BaseCommitterOptions) (lastDecided : Slot) :
    List Round → List (LeaderStatus × Decision) → List RoundOp
  | [], _ => []
  | round :: rest, leaders =>
    dag.decideRoundOps lastDecided round committers.reverse leaders ++
      match dag.decideRound lastDecided round committers.reverse leaders with
      | .ok (reached, leaders) => if reached then [] else decideRoundsOps committers lastDecided rest leaders
      | .error _ => []

def tryDecideOps (committers : List BaseCommitterOptions) (lastDecided : Slot) : List RoundOp :=
  dag.decideRoundsOps committers lastDecided (dag.openRounds lastDecided) []

end DagState

/-- One call: the clock for every accepted block, the early votes of each, and the committer. -/
def ConsensusNode.acceptBlocksOps (node : ConsensusNode) (batch : List VerifiedBlock) : List RoundOp :=
  let o := node.manager.tryAcceptBlocks batch
  node.manager.dagState.acceptBlocksOps o.accepted ++ o.accepted.flatMap VerifiedBlock.checkSoftCommitOps ++
    o.manager.dagState.tryDecideOps (UniversalCommitterBuilder.build {}) node.lastDecided

/-- No call of the run overflows, up to one that panics. -/
def ConsensusNode.RunFits (sha3 : List UInt8 → BlockDigest) (node : ConsensusNode) :
    List (List VerifiedBlock) → Prop
  | [] => True
  | batch :: rest => AllFit (node.acceptBlocksOps batch) ∧
    ∀ next, (node.acceptBlocks sha3 batch).node = .ok next → next.RunFits sha3 rest

/-- A block of the last round completes a quorum: by itself where the clock is behind, and with the
authors counted so far where the clock has come to it. -/
structure ThresholdClock.Overruns (c : Committee) (clock : ThresholdClock) (block : BlockRef) : Prop where
  last : block.round = u32Size - 1
  completes : clock.round < block.round ∧ c.Quorum {block.author} ∨
    clock.round = block.round ∧ block.author ∉ clock.aggregator.votes ∧
      c.Quorum (insert block.author clock.aggregator.votes)

/-- No block of the sequence does that. -/
def ThresholdClock.StaysInRange (c : Committee) (clock : ThresholdClock) (blocks : List BlockRef) : Prop :=
  Along (fun clock block => (clock.addBlock c block).2) (fun clock block => ¬ clock.Overruns c block) clock blocks

/-! ### The clock -/

namespace ThresholdClock
variable {c : Committee} {clock : ThresholdClock}

theorem counts_addBlock (h : StakeAggregator.Counts c clock.aggregator) (block : BlockRef) :
    StakeAggregator.Counts c (clock.addBlock c block).2.aggregator := by
  rcases Nat.lt_trichotomy block.round clock.round with hlt | heq | hgt
  · rw [addBlock_of_lt hlt]
    exact h
  · rw [addBlock_of_eq heq]
    split_ifs
    · exact StakeAggregator.counts_new c
    · exact StakeAggregator.counts_add h block.author
  · rw [addBlock_of_gt hgt]
    exact StakeAggregator.counts_add (StakeAggregator.counts_new c) block.author

/-- One past a round is in range unless it is the last. -/
theorem succ_fits_iff (block : BlockRef) : (RoundOp.add block.round 1).Fits ↔ block.round ≠ u32Size - 1 := by
  have harith : ∀ r n : Nat, r < n → (r + 1 < n ↔ r ≠ n - 1) := by omega
  exact harith block.round u32Size block.round_lt

/-- **The clock** leaves the range exactly where it overruns. -/
theorem addBlockOps_fit_iff (h : StakeAggregator.Counts c clock.aggregator) (block : BlockRef) :
    AllFit (clock.addBlockOps c block) ↔ ¬ clock.Overruns c block := by
  have hone : ∀ {reached : Prop} [Decidable reached],
      AllFit (if reached then [.add block.round 1] else []) ↔ ¬ (block.round = u32Size - 1 ∧ reached) := by
    intro reached _
    by_cases hreached : reached
    · rw [if_pos hreached, allFit_cons, succ_fits_iff]
      simp [hreached]
    · rw [if_neg hreached]
      simp [hreached]
  unfold addBlockOps
  rcases Nat.lt_trichotomy block.round clock.round with hlt | heq | hgt
  · rw [if_pos hlt]
    refine iff_of_true allFit_nil fun hover => ?_
    rcases hover.completes with hbehind | hthere
    · exact Nat.lt_asymm hlt hbehind.1
    · exact hlt.ne hthere.1.symm
  · rw [if_neg heq.not_lt, if_pos heq, hone, StakeAggregator.add_eq_true h]
    refine not_congr ⟨fun hadd => ⟨hadd.1, .inr ⟨heq.symm, hadd.2⟩⟩, fun hover => ⟨hover.last, ?_⟩⟩
    rcases hover.completes with hbehind | hthere
    · exact absurd heq.symm hbehind.1.ne
    · exact hthere.2
  · rw [if_neg (Nat.lt_asymm hgt), if_neg hgt.ne', hone]
    show ¬ (_ ∧ (StakeAggregator.new.add block.author c).1 = true) ↔ _
    rw [new_add_eq_true]
    refine not_congr ⟨fun hadd => ⟨hadd.1, .inl ⟨hgt, hadd.2⟩⟩, fun hover => ⟨hover.last, ?_⟩⟩
    rcases hover.completes with hbehind | hthere
    · exact hbehind.2
    · exact absurd hthere.1 hgt.ne

end ThresholdClock

theorem DagState.acceptBlocksOps_fit_iff {dag : DagState}
    (h : StakeAggregator.Counts dag.committee dag.thresholdClock.aggregator) (blocks : List VerifiedBlock) :
    AllFit (dag.acceptBlocksOps blocks) ↔
      dag.thresholdClock.StaysInRange dag.committee (blocks.map VerifiedBlock.reference) := by
  induction blocks generalizing dag with
  | nil => exact iff_of_true allFit_nil trivial
  | cons b rest ih =>
    have hrest := @ih (dag.acceptBlock b) (ThresholdClock.counts_addBlock h b.reference)
    rw [DagState.acceptBlocksOps, allFit_append, ThresholdClock.addBlockOps_fit_iff h, hrest]
    exact Iff.rfl

/-! ### The committer -/

section
variable {dag : DagState}

theorem decisionRoundOps_fit {wave : Nat} (h : wave * 3 + 3 < u32Size) :
    AllFit (({} : BaseCommitterOptions).decisionRoundOps wave) := by
  show AllFit [.mul wave 3, .add (wave * 3) 3, .sub (wave * 3 + 3) 1, .add (wave * 3 + 3 - 1) 0]
  simp only [allFit_cons, allFit_nil, RoundOp.Fits, and_true]
  omega

theorem electLeaderOps_fit {round : Nat} (h : round < u32Size) :
    AllFit (({} : BaseCommitterOptions).electLeaderOps round) := by
  show AllFit [.mul (round / 3) 3, .add (round / 3 * 3) 0]
  simp only [allFit_cons, allFit_nil, RoundOp.Fits, and_true]
  omega

/-- A leader that can be tried: three past its round is in range. -/
structure Tried (slot : Slot) : Prop where
  wave : slot.round / 3 * 3 = slot.round
  lt : slot.round + 3 < u32Size

theorem Tried.decisionRoundOps_fit {slot : Slot} (h : Tried slot) :
    AllFit (({} : BaseCommitterOptions).decisionRoundOps (({} : BaseCommitterOptions).waveNumber slot.round)) := by
  apply DualOptimistic.Consensus.decisionRoundOps_fit
  show slot.round / 3 * 3 + 3 < u32Size
  rw [h.wave]
  exact h.lt

theorem tryDirectDecideOps_fit {leader : Slot} (h : Tried leader) : AllFit (dag.tryDirectDecideOps {} leader) := by
  have harith : ∀ r n : Nat, r + 3 < n → r + 1 < n ∧ r + 1 + 1 < n := by omega
  obtain ⟨hvoting, hend⟩ := harith leader.round u32Size h.lt
  have hdecision : (RoundOp.add (({} : BaseCommitterOptions).decisionRound
      (({} : BaseCommitterOptions).waveNumber leader.round)) 1).Fits := by
    show leader.round / 3 * 3 + 3 < u32Size
    rw [h.wave]
    exact h.lt
  rw [DagState.tryDirectDecideOps, List.cons_append, allFit_cons, allFit_append]
  refine ⟨hvoting, allFit_cons.mpr ⟨hend, allFit_nil⟩, ?_⟩
  split_ifs
  · exact allFit_nil
  · refine allFit_append.mpr ⟨h.decisionRoundOps_fit, fun op hop => ?_⟩
    obtain ⟨-, -, hop⟩ := List.mem_flatMap.mp hop
    rw [List.mem_singleton.mp hop]
    exact hdecision

theorem tryIndirectDecideOps_fit {slot : Slot} (h : Tried slot) (leaders : List LeaderStatus) :
    AllFit (DagState.tryIndirectDecideOps {} slot leaders) := by
  induction leaders with
  | nil => exact allFit_nil
  | cons anchor rest ih =>
    unfold DagState.tryIndirectDecideOps
    refine allFit_cons.mpr ⟨h.lt, ?_⟩
    split_ifs
    · cases anchor with
      | commit block => exact h.decisionRoundOps_fit
      | skip leader => exact ih
      | undecided leader => exact allFit_nil
    · exact ih

theorem decideSlotOps_fit {slot : Slot} (h : Tried slot) (leaders : List (LeaderStatus × Decision)) :
    AllFit (dag.decideSlotOps {} slot leaders) := by
  refine allFit_append.mpr ⟨tryDirectDecideOps_fit h, ?_⟩
  cases dag.tryDirectDecide {} slot with
  | error p => exact allFit_nil
  | ok status =>
    dsimp only
    split_ifs
    · exact allFit_nil
    · exact tryIndirectDecideOps_fit h _

/-- An elected leader at least two rounds below the last: that is three at least. -/
theorem tried_of_electLeader {c : Committee} {round : Round} {slot : Slot}
    (h : electLeader c {} round = some slot) (hround : round + 2 < u32Size) : Tried slot := by
  have harith : ∀ r : Nat, r / 3 * 3 = r → r + 2 < 2 ^ 32 → r + 3 < 2 ^ 32 := by omega
  unfold electLeader at h
  split_ifs at h with hwave
  obtain rfl := Option.some.inj h
  have hwave : round / 3 * 3 = round := not_not.mp hwave
  exact ⟨hwave, harith round hwave hround⟩

theorem decideRoundOps_fit {lastDecided : Slot} {round : Round} (hround : round + 2 < u32Size)
    (leaders : List (LeaderStatus × Decision)) : AllFit (dag.decideRoundOps lastDecided round [{}] leaders) := by
  rw [DagState.decideRoundOps]
  refine allFit_append.mpr ⟨electLeaderOps_fit ((Nat.le_add_right ..).trans_lt hround), ?_⟩
  cases helect : electLeader dag.committee {} round with
  | none => exact allFit_nil
  | some slot =>
    dsimp only
    split_ifs
    · exact allFit_nil
    · refine allFit_append.mpr ⟨decideSlotOps_fit (tried_of_electLeader helect hround) leaders, ?_⟩
      cases dag.decideSlot {} slot leaders with
      | error p => exact allFit_nil
      | ok decided => exact allFit_nil

theorem decideRoundsOps_fit {lastDecided : Slot} {rounds : List Round} (hrounds : ∀ r ∈ rounds, r + 2 < u32Size)
    (leaders : List (LeaderStatus × Decision)) : AllFit (dag.decideRoundsOps [{}] lastDecided rounds leaders) := by
  induction rounds generalizing leaders with
  | nil => exact allFit_nil
  | cons round rest ih =>
    rw [DagState.decideRoundsOps]
    refine allFit_append.mpr ⟨decideRoundOps_fit (hrounds round List.mem_cons_self) leaders, ?_⟩
    cases dag.decideRound lastDecided round [{}].reverse leaders with
    | error p => exact allFit_nil
    | ok result =>
      dsimp only
      split_ifs
      · exact allFit_nil
      · exact ih (fun r hr => hrounds r (List.mem_cons_of_mem _ hr)) _

/-- **The committer** stays in range over any DAG. -/
theorem tryDecideOps_fit (h : dag.highestAcceptedRound < u32Size) (lastDecided : Slot) :
    AllFit (dag.tryDecideOps (UniversalCommitterBuilder.build {}) lastDecided) := by
  apply decideRoundsOps_fit
  intro r hr
  have harith : ∀ last highest r : Nat, highest < 2 ^ 32 → r < last + (highest - 2 + 1 - last) →
      last ≤ r → r + 2 < 2 ^ 32 := by omega
  obtain ⟨hle, hlt⟩ := List.mem_range'_1.mp (List.mem_reverse.mp hr)
  exact harith lastDecided.round dag.highestAcceptedRound r h hlt hle

end

theorem VerifiedBlock.checkSoftCommitOps_fit (block : VerifiedBlock) : AllFit block.checkSoftCommitOps := by
  unfold checkSoftCommitOps
  split_ifs with hlow
  · exact allFit_nil
  · have harith : ∀ r : Nat, ¬ r < 2 → 1 ≤ r := by omega
    exact allFit_cons.mpr ⟨harith block.round hlow, allFit_nil⟩

/-! ### Runs -/

/-- What the arithmetic reads of a DAG, apart from its blocks. -/
structure DagState.SameRounds (dag dag' : DagState) : Prop where
  committee : dag'.committee = dag.committee
  clock : dag'.thresholdClock = dag.thresholdClock
  highest : dag'.highestAcceptedRound = dag.highestAcceptedRound

theorem DagState.SameRounds.trans {dag dag' dag'' : DagState} (h : dag.SameRounds dag')
    (h' : dag'.SameRounds dag'') : dag.SameRounds dag'' :=
  ⟨h'.committee.trans h.committee, h'.clock.trans h.clock, h'.highest.trans h.highest⟩

/-- A commit leaves the clock alone. -/
theorem DagState.sameRounds_commitLeader {sha3 : List UInt8 → BlockDigest} {dag dag' : DagState}
    {leader : VerifiedBlock} {subDag : CommittedSubDag}
    (h : dag.commitLeader sha3 leader = .ok (subDag, dag')) : dag.SameRounds dag' := by
  obtain ⟨⟨blocks, dag₁⟩, hwalk, h⟩ := except_bind_ok_iff.mp h
  obtain ⟨-, rfl⟩ := Prod.mk.inj (Except.ok.inj h)
  rw [linearizeSubDag] at hwalk
  split_ifs at hwalk
  obtain ⟨⟨toCommit, dag₂⟩, hloop, hwalk⟩ := except_bind_ok_iff.mp hwalk
  rw [setCommitted_eq_union] at hloop
  obtain ⟨-, C, -, rfl⟩ := causalLoop_of_linearizeLoop hloop
  dsimp only at hwalk
  split_ifs at hwalk
  obtain ⟨-, rfl⟩ := Prod.mk.inj (Except.ok.inj hwalk)
  exact ⟨rfl, rfl, rfl⟩

theorem sameRounds_commitEach {sha3 : List UInt8 → BlockDigest} {s s' : HardState} {decided : List DecidedLeader}
    (h : (s.commitEach sha3 decided).2 = .ok s') : s.dag.SameRounds s'.dag := by
  induction decided generalizing s with
  | nil =>
    obtain rfl := Except.ok.inj h
    exact ⟨rfl, rfl, rfl⟩
  | cons d rest ih =>
    cases d with
    | skip slot => exact @ih ⟨s.dag, slot⟩ h
    | commit block direct =>
      cases hcommit : s.dag.commitLeader sha3 block with
      | error p =>
        rw [HardState.commitEach, hcommit] at h
        cases h
      | ok res =>
        rw [HardState.commitEach, hcommit] at h
        exact (DagState.sameRounds_commitLeader hcommit).trans (@ih ⟨res.2, block.slot⟩ h)

/-- Accepting blocks feeds them to the clock, in their order. -/
theorem DagState.acceptBlocks_clock (dag : DagState) (blocks : List VerifiedBlock) :
    (dag.acceptBlocks blocks).thresholdClock =
      ThresholdClock.run dag.committee dag.thresholdClock (blocks.map VerifiedBlock.reference) := by
  induction blocks generalizing dag with
  | nil => rfl
  | cons b rest ih => exact ih (dag.acceptBlock b)

/-- The counters are in range. -/
structure DagState.Ranged (c : Committee) (dag : DagState) : Prop where
  committee : dag.committee = c
  counts : StakeAggregator.Counts c dag.thresholdClock.aggregator
  highest : dag.highestAcceptedRound < u32Size

theorem DagState.Ranged.acceptBlocks {c : Committee} {dag : DagState} (h : DagState.Ranged c dag) (blocks : List VerifiedBlock) :
    DagState.Ranged c (dag.acceptBlocks blocks) := by
  induction blocks generalizing dag with
  | nil => exact h
  | cons b rest ih =>
    obtain ⟨rfl, hcounts, hhighest⟩ := h
    exact ih ⟨rfl, ThresholdClock.counts_addBlock hcounts b.reference, DagState.highest_acceptBlock hhighest b⟩

theorem DagState.Ranged.of_sameRounds {c : Committee} {dag dag' : DagState} (h : DagState.Ranged c dag)
    (hsame : dag.SameRounds dag') : DagState.Ranged c dag' := by
  refine ⟨hsame.committee.trans h.committee, ?_, ?_⟩
  · rw [hsame.clock]
    exact h.counts
  · rw [hsame.highest]
    exact h.highest

/-- **One call** overflows exactly if the clock overruns on what it accepts. -/
theorem DagState.Ranged.acceptBlocksOps_fit_iff {c : Committee} {node : ConsensusNode}
    (h : DagState.Ranged c node.manager.dagState) (batch : List VerifiedBlock) :
    AllFit (node.acceptBlocksOps batch) ↔ node.manager.dagState.thresholdClock.StaysInRange c
      ((node.manager.tryAcceptBlocks batch).accepted.map VerifiedBlock.reference) := by
  have hcommitter : AllFit ((node.manager.tryAcceptBlocks batch).manager.dagState.tryDecideOps
      (UniversalCommitterBuilder.build {}) node.lastDecided) := by
    apply tryDecideOps_fit
    rw [node.manager.tryAcceptBlocks_dagState]
    exact (h.acceptBlocks _).highest
  have hvotes : AllFit ((node.manager.tryAcceptBlocks batch).accepted.flatMap VerifiedBlock.checkSoftCommitOps) := by
    intro op hop
    obtain ⟨b, -, hop⟩ := List.mem_flatMap.mp hop
    exact b.checkSoftCommitOps_fit op hop
  obtain ⟨rfl, hcounts, -⟩ := h
  rw [← DagState.acceptBlocksOps_fit_iff hcounts, ConsensusNode.acceptBlocksOps, allFit_append, allFit_append]
  exact ⟨fun hall => hall.1.1, fun hclock => ⟨⟨hclock, hvotes⟩, hcommitter⟩⟩

/-- A call that returns has fed the clock what it accepted. -/
theorem DagState.Ranged.next {sha3 : List UInt8 → BlockDigest} {c : Committee} {node next : ConsensusNode}
    (h : DagState.Ranged c node.manager.dagState) {batch : List VerifiedBlock}
    (hnext : (node.acceptBlocks sha3 batch).node = .ok next) :
    DagState.Ranged c next.manager.dagState ∧ next.manager.dagState.thresholdClock =
      ThresholdClock.run c node.manager.dagState.thresholdClock
        ((node.manager.tryAcceptBlocks batch).accepted.map VerifiedBlock.reference) := by
  obtain ⟨decided, s, -, hcommit, hmanager, -⟩ := acceptBlocks_ok hnext
  have hsame := sameRounds_commitEach hcommit
  rw [node.manager.tryAcceptBlocks_dagState] at hsame
  rw [hmanager]
  refine ⟨(h.acceptBlocks _).of_sameRounds hsame, ?_⟩
  rw [hsame.clock, DagState.acceptBlocks_clock, h.committee]

theorem DagState.Ranged.run {sha3 : List UInt8 → BlockDigest} {c : Committee} {node : ConsensusNode}
    (h : DagState.Ranged c node.manager.dagState) (batches : List (List VerifiedBlock)) :
    node.RunFits sha3 batches ↔ node.manager.dagState.thresholdClock.StaysInRange c
      ((node.run sha3 batches).accepted.map VerifiedBlock.reference) := by
  induction batches generalizing node with
  | nil => exact Iff.rfl
  | cons batch rest ih =>
    rw [ConsensusNode.RunFits, h.acceptBlocksOps_fit_iff, ConsensusNode.run]
    dsimp only
    cases hnext : (node.acceptBlocks sha3 batch).node with
    | error p =>
      refine and_iff_left fun next hnever => ?_
      cases hnever
    | ok next =>
      obtain ⟨hrange, hclock⟩ := h.next hnext
      dsimp only
      rw [List.map_append, ThresholdClock.StaysInRange, ThresholdClock.StaysInRange, along_append]
      refine and_congr Iff.rfl ?_
      have hrest := ih hrange
      rw [hclock] at hrest
      constructor
      · exact fun hall => hrest.mp (hall next rfl)
      · intro hstays next' heq
        obtain rfl := Except.ok.inj heq
        exact hrest.mpr hstays

/-- **No round arithmetic overflows**, for every committee and in every call of every run, exactly
if no accepted block of the last round completes a quorum in the clock. -/
theorem run_fits_iff (sha3 : List UInt8 → BlockDigest) (c : Committee) (batches : List (List VerifiedBlock)) :
    (ConsensusNode.new sha3 c).RunFits sha3 batches ↔ (ThresholdClock.new 1).StaysInRange c
      (((ConsensusNode.new sha3 c).run sha3 batches).accepted.map VerifiedBlock.reference) := by
  have hzero : 0 < u32Size := Nat.two_pow_pos 32
  have hnew : DagState.Ranged c (ConsensusNode.new sha3 c).manager.dagState := ⟨rfl, StakeAggregator.counts_new c, hzero⟩
  exact hnew.run batches

/-- Three of four authorities send a block of the last round that lists genesis only. The third
completes the quorum, and the clock is back at round 0. -/
theorem last_round_overflows :
    let genesis : List BlockRef := [.new 0 0 0, .new 0 1 0, .new 0 2 0, .new 0 3 0]
    let batch := [plainBlock 4294967295 0 genesis, plainBlock 4294967295 1 genesis, plainBlock 4294967295 2 genesis]
    let node := ConsensusNode.new (fun _ => 0) fourAuthorities
    .add 4294967295 1 ∈ node.acceptBlocksOps batch ∧
      (node.manager.tryAcceptBlocks batch).manager.dagState.thresholdClock.round = 0 ∧
      ¬ node.RunFits (fun _ => 0) [batch] := by
  intro genesis batch node
  have hclock : node.manager.dagState.acceptBlocksOps (node.manager.tryAcceptBlocks batch).accepted =
      [.add 4294967295 1] := by
    decide +kernel
  have hop : .add 4294967295 1 ∈ node.acceptBlocksOps batch := by
    refine List.mem_append_left _ (List.mem_append_left _ ?_)
    rw [hclock]
    exact List.mem_singleton_self _
  refine ⟨hop, by decide +kernel, fun h => ?_⟩
  have hfits : 4294967295 + 1 < u32Size := h.1 _ hop
  exact absurd hfits (by decide)

end DualOptimistic.Consensus
