import DualOptimistic.Consensus.BaseCommitter

/-! The committer that drives the commit rules over all open waves
(`consensus/src/universal_committer.rs`).

Leaders are tried from the highest round down, so that the later ones are there to
decide the earlier; the decided leaders are the longest decided prefix. -/
namespace DualOptimistic.Consensus
open Data

/-- How a committer is built. -/
structure UniversalCommitterBuilder where
  waveLength : Round := defaultWaveLength
  numberOfLeaders : Nat := 1
  pipeline : Bool := false

/-- One base committer per leader, and with pipelining one such set per round of a wave. -/
def UniversalCommitterBuilder.build (b : UniversalCommitterBuilder) : List BaseCommitterOptions :=
  let leaders := fun roundOffset => (List.range b.numberOfLeaders).map fun leaderOffset =>
    { waveLength := b.waveLength, leaderOffset, roundOffset : BaseCommitterOptions }
  if b.pipeline then (List.range b.waveLength).flatMap leaders else leaders 0

namespace DagState
variable (dag : DagState)

/-- Decide one slot: directly, else by the later leaders. -/
def decideSlot (o : BaseCommitterOptions) (slot : Slot) (leaders : List (LeaderStatus × Decision)) :
    Except Panic (LeaderStatus × Decision) := do
  let status ← dag.tryDirectDecide o slot
  if status.isDecided then pure (status, .direct)
  else do
    let status ← dag.tryIndirectDecide o slot (leaders.map Prod.fst)
    pure (status, .indirect)

/-- The slots of one round, last committer first. The flag says that `lastDecided` was reached. -/
def decideRound (lastDecided : Slot) (round : Round) :
    List BaseCommitterOptions → List (LeaderStatus × Decision) →
      Except Panic (Bool × List (LeaderStatus × Decision))
  | [], leaders => .ok (false, leaders)
  | o :: rest, leaders =>
    match electLeader dag.committee o round with
    | none => decideRound lastDecided round rest leaders
    | some slot =>
      if slot = lastDecided then .ok (true, leaders)
      else do
        let decided ← dag.decideSlot o slot leaders
        decideRound lastDecided round rest (decided :: leaders)

def decideRounds (committers : List BaseCommitterOptions) (lastDecided : Slot) :
    List Round → List (LeaderStatus × Decision) → Except Panic (List (LeaderStatus × Decision))
  | [], leaders => .ok leaders
  | round :: rest, leaders => do
    let (reached, leaders) ← dag.decideRound lastDecided round committers.reverse leaders
    if reached then pure leaders else decideRounds committers lastDecided rest leaders

/-- The rounds tried, from the highest that can have a decision round down. -/
def openRounds (lastDecided : Slot) : List Round :=
  (List.range' lastDecided.round (dag.highestAcceptedRound - 2 + 1 - lastDecided.round)).reverse

/-- The longest prefix of decided leaders, genesis left out. -/
def decidedPrefix : List (LeaderStatus × Decision) → List DecidedLeader
  | [] => []
  | (leader, decision) :: rest =>
    if leader.round = genesisRound then decidedPrefix rest
    else
      match leader.intoDecidedLeader (decision = .direct) with
      | none => []
      | some decided => decided :: decidedPrefix rest

/-- Try to decide as many leaders as possible, starting from `lastDecided`. -/
def tryDecide (committers : List BaseCommitterOptions) (lastDecided : Slot) :
    Except Panic (List DecidedLeader) := do
  let leaders ← dag.decideRounds committers lastDecided (dag.openRounds lastDecided) []
  pure (decidedPrefix leaders)

end DagState

end DualOptimistic.Consensus
