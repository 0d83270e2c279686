import DualOptimistic.Consensus.UniversalCommitter
import Mathlib.Data.List.Sort

/-! From decided leaders to ordered sub-dags (`consensus/src/linearizer.rs`, `commit.rs`,
and `try_hard_commit` of `node.rs`).

A committed leader takes with it every uncommitted block of its history. The walk marks
blocks as committed when it pushes them, and asserts that none was; the blocks are then
sorted by round and author. -/
namespace DualOptimistic.Consensus
open Data

/-! ### Commits -/

/-- A commit by its index and digest. -/
structure CommitRef where
  index : CommitIndex
  digest : CommitDigest
deriving DecidableEq

/-- The ordered set of blocks that form one consensus commit. -/
structure CommittedSubDag where
  leader : BlockRef
  /-- All committed blocks, sorted by round and author. -/
  blocks : List VerifiedBlock
  timestampMs : BlockTimestampMs
  commitRef : CommitRef
deriving DecidableEq

/-- Sort by round, then author; the sort is stable. -/
def sortSubDagBlocks (blocks : List VerifiedBlock) : List VerifiedBlock :=
  blocks.insertionSort fun a b => a.round < b.round ∨ a.round = b.round ∧ a.author ≤ b.author

/-- The digest of a commit from its index and its leader. -/
def deriveCommitDigest (sha3 : List UInt8 → BlockDigest) (index : CommitIndex) (leader : BlockRef) :
    CommitDigest :=
  sha3 (leBytes 4 index ++ leBytes 4 leader.round ++ leBytes 4 leader.author ++ leader.digest.bytes)

namespace DagState

def recordCommit (dag : DagState) (subDag : CommittedSubDag) : DagState :=
  { dag with
    lastCommitIndex := subDag.commitRef.index
    lastCommitDigest := subDag.commitRef.digest
    lastCommitTimestampMs := subDag.timestampMs }

/-! ### The walk -/

/-- The uncommitted ancestors above the garbage-collection round. -/
def openAncestors (dag : DagState) (block : VerifiedBlock) : List BlockRef :=
  block.ancestors.filter fun a => decide (dag.gcRound < a.round) && !dag.isCommitted a

def fetchBlocks (dag : DagState) : List BlockRef → Except Panic (List VerifiedBlock)
  | [] => .ok []
  | r :: rest =>
    match dag.getBlock r with
    | none => .error (.ancestorMissing r)
    | some b => do
      let more ← dag.fetchBlocks rest
      pure (b :: more)

/-- Mark the blocks as committed and push them; each must be new. -/
def pushCommitted (dag : DagState) :
    List VerifiedBlock → List VerifiedBlock → Except Panic (DagState × List VerifiedBlock)
  | [], buffer => .ok (dag, buffer)
  | b :: rest, buffer =>
    if (dag.setCommitted b.reference).1 then
      (dag.setCommitted b.reference).2.pushCommitted rest (b :: buffer)
    else .error (.committedTwice b.reference)

/-- The stack loop of `linearize_sub_dag`: the blocks in the order they are popped. -/
def linearizeLoop : Nat → DagState → List VerifiedBlock → Except Panic (List VerifiedBlock × DagState)
  | _, dag, [] => .ok ([], dag)
  | 0, _, _ :: _ => .error .outOfFuel
  | n + 1, dag, block :: buffer => do
    let ancestors ← dag.fetchBlocks (dag.openAncestors block)
    let (dag, buffer) ← dag.pushCommitted ancestors buffer
    let (rest, dag) ← linearizeLoop n dag buffer
    pure (block :: rest, dag)

/-- Collect the uncommitted history of the leader, sorted. -/
def linearizeSubDag (dag : DagState) (leaderBlock : VerifiedBlock) :
    Except Panic (List VerifiedBlock × DagState) :=
  if (dag.setCommitted leaderBlock.reference).1 then do
    let (toCommit, dag) ←
      linearizeLoop dag.walkFuel (dag.setCommitted leaderBlock.reference).2 [leaderBlock]
    if toCommit.all fun b => decide (dag.gcRound < b.round) then
      pure (sortSubDagBlocks toCommit, dag)
    else .error .belowGcRound
  else .error (.alreadyCommitted leaderBlock.reference)

/-- Commit one leader: the next index, its sub-dag, and a timestamp that never falls. -/
def commitLeader (sha3 : List UInt8 → BlockDigest) (dag : DagState) (leaderBlock : VerifiedBlock) :
    Except Panic (CommittedSubDag × DagState) := do
  let nextIndex := dag.lastCommitIndex + 1
  let (toCommit, dag') ← dag.linearizeSubDag leaderBlock
  let subDag : CommittedSubDag :=
    { leader := leaderBlock.reference
      blocks := toCommit
      timestampMs := max leaderBlock.timestampMs dag.lastCommitTimestampMs
      commitRef := ⟨nextIndex, deriveCommitDigest sha3 nextIndex leaderBlock.reference⟩ }
  pure (subDag, dag'.recordCommit subDag)

end DagState

/-! ### Hard commits -/

/-- The part of a node that decides and commits. -/
structure HardState where
  dag : DagState
  /-- Last leader slot that was decided. -/
  lastDecided : Slot

/-- What a pass decided and committed. -/
structure HardOutcome where
  decided : List DecidedLeader
  subDags : List CommittedSubDag
  state : HardState

namespace HardState

/-- A node over an empty DAG; the genesis slot stands for the last decision. -/
def new (sha3 : List UInt8 → BlockDigest) (c : Committee) : HardState :=
  ⟨DagState.new sha3 c, ⟨genesisRound, 0⟩⟩

/-- Commit or skip the decided leaders in order. -/
def commitDecided (sha3 : List UInt8 → BlockDigest) (s : HardState) :
    List DecidedLeader → Except Panic (List CommittedSubDag × HardState)
  | [] => .ok ([], s)
  | .commit block _ :: rest => do
    let (subDag, dag) ← s.dag.commitLeader sha3 block
    let (more, s) ← HardState.commitDecided sha3 ⟨dag, block.slot⟩ rest
    pure (subDag :: more, s)
  | .skip slot :: rest => HardState.commitDecided sha3 ⟨s.dag, slot⟩ rest

/-- Run the default committer and commit every newly decided leader. -/
def tryHardCommit (sha3 : List UInt8 → BlockDigest) (s : HardState) : Except Panic HardOutcome := do
  let decided ← s.dag.tryDecide (UniversalCommitterBuilder.build {}) s.lastDecided
  let (subDags, s) ← s.commitDecided sha3 decided
  pure ⟨decided, subDags, s⟩

end HardState

end DualOptimistic.Consensus
