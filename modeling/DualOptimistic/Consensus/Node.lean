import DualOptimistic.Consensus.BlockManager
import DualOptimistic.Consensus.Linearizer
import DualOptimistic.Consensus.SoftCommit

/-! The consensus node (`consensus/src/node.rs`, `shared/src/lib.rs`).

A call hands a batch to the block manager, checks every accepted block for early commits,
and then tries to commit for good. Events are sent as they happen, so a call that panics
has still sent those before. The checks of debug builds are left out. -/
namespace DualOptimistic.Consensus
open Data

/-! ### Events -/

/-- Raw encoded transaction, on the other side of the crate boundary. -/
structure EthSignedTx where
  bytes : List UInt8
deriving DecidableEq

structure OurVerifiedBlock where
  blockRef : BlockRef
  txs : List EthSignedTx
deriving DecidableEq

structure OurCommittedSubDag where
  leader : BlockRef
  blocks : List OurVerifiedBlock
  timestampMs : BlockTimestampMs
  commitIndex : Nat
deriving DecidableEq

/-- The transactions of a sub-dag, in block order. -/
def OurCommittedSubDag.txs (subdag : OurCommittedSubDag) : List EthSignedTx :=
  subdag.blocks.flatMap OurVerifiedBlock.txs

inductive ConsensusEvent where
  /-- Optimistic pre-commit: wave leader detected. -/
  | softCommit (round : Round) (leader : BlockRef) (txs : List EthSignedTx)
  /-- Final commit. -/
  | hardCommit (subdag : OurCommittedSubDag)
deriving DecidableEq

def ConsensusEvent.leader : ConsensusEvent → BlockRef
  | softCommit _ leader _ => leader
  | hardCommit subdag => subdag.leader

/-- The leader round an event is about. -/
def ConsensusEvent.round : ConsensusEvent → Round
  | softCommit round _ _ => round
  | hardCommit subdag => subdag.leader.round

def ConsensusEvent.isSoft : ConsensusEvent → Bool
  | softCommit .. => true
  | hardCommit _ => false

def VerifiedBlock.signedTxs (b : VerifiedBlock) : List EthSignedTx :=
  b.transactions.map fun tx => ⟨tx.bytes⟩

def toSharedBlock (b : VerifiedBlock) : OurVerifiedBlock := ⟨b.reference, b.signedTxs⟩

def toSharedSubdag (subdag : CommittedSubDag) : OurCommittedSubDag where
  leader := subdag.leader
  blocks := subdag.blocks.map toSharedBlock
  timestampMs := subdag.timestampMs
  commitIndex := subdag.commitRef.index

/-! ### The node -/

/-- The context and the channel are left out; the block manager holds the DAG. -/
structure ConsensusNode where
  manager : BlockManager
  softCommit : SoftCommitTracker
  /-- Last leader slot that was decided. -/
  lastDecided : Slot

/-- An event and the DAG it was sent from; a sub-dag is sent from the DAG before its commit. -/
structure Emission where
  dag : DagState
  event : ConsensusEvent

/-- What a call accepted, decided and sent, and the node after it if it returned. -/
structure NodeOutcome where
  accepted : List VerifiedBlock
  decided : List DecidedLeader
  sent : List Emission
  node : Except Panic ConsensusNode

def NodeOutcome.events (o : NodeOutcome) : List ConsensusEvent := o.sent.map Emission.event

/-- The blocks a leader would commit now, in the order of the walk. The walk never runs
out of fuel (`getCausalBlocks_ok`). -/
def DagState.causalBlocks (dag : DagState) (leader : BlockRef) : List VerifiedBlock :=
  match dag.getCausalBlocks leader dag.gcRound with
  | .ok blocks => blocks
  | .error _ => []

def DagState.causalTxs (dag : DagState) (leader : BlockRef) : List EthSignedTx :=
  (dag.causalBlocks leader).flatMap VerifiedBlock.signedTxs

/-- Count the leader blocks among the ancestors as votes of `voter`. -/
def DagState.countSoftVotes (dag : DagState) (leaderRound : Round) (voter : AuthorityIndex) :
    List BlockRef → SoftCommitTracker → List ConsensusEvent × SoftCommitTracker
  | [], t => ([], t)
  | a :: rest, t =>
    if a.round = leaderRound ∧ a.author = SoftCommitTracker.leaderAtRound leaderRound dag.committee.size then
      let vote := t.addVote a voter dag.committee
      let more := countSoftVotes dag leaderRound voter rest vote.2
      (if vote.1 then .softCommit leaderRound a (dag.causalTxs a) :: more.1 else more.1, more.2)
    else countSoftVotes dag leaderRound voter rest t

/-- A block of a voting round votes for the wave leader of the round before. -/
def DagState.checkSoftCommit (dag : DagState) (block : VerifiedBlock) (t : SoftCommitTracker) :
    List ConsensusEvent × SoftCommitTracker :=
  if block.round < 2 then ([], t)
  else if SoftCommitTracker.isLeaderRound (block.round - 1) then
    dag.countSoftVotes (block.round - 1) block.author block.ancestors t
  else ([], t)

def DagState.checkSoftCommits (dag : DagState) :
    List VerifiedBlock → SoftCommitTracker → List ConsensusEvent × SoftCommitTracker
  | [], t => ([], t)
  | block :: rest, t =>
    let first := dag.checkSoftCommit block t
    let more := checkSoftCommits dag rest first.2
    (first.1 ++ more.1, more.2)

/-- Commit or skip the decided leaders in order, sending each sub-dag as it is there. -/
def HardState.commitEach (sha3 : List UInt8 → BlockDigest) (s : HardState) :
    List DecidedLeader → List Emission × Except Panic HardState
  | [] => ([], .ok s)
  | .commit block _ :: rest =>
    match s.dag.commitLeader sha3 block with
    | .error p => ([], .error p)
    | .ok (subDag, dag) =>
      let more := HardState.commitEach sha3 ⟨dag, block.slot⟩ rest
      (⟨s.dag, .hardCommit (toSharedSubdag subDag)⟩ :: more.1, more.2)
  | .skip slot :: rest => HardState.commitEach sha3 ⟨s.dag, slot⟩ rest

namespace ConsensusNode

def new (sha3 : List UInt8 → BlockDigest) (c : Committee) : ConsensusNode :=
  ⟨.new (.new sha3 c), .new, ⟨genesisRound, 0⟩⟩

/-- Run the committer and send a sub-dag for every newly committed leader. -/
def tryHardCommit (sha3 : List UInt8 → BlockDigest) (node : ConsensusNode) : NodeOutcome :=
  match node.manager.dagState.tryDecide (UniversalCommitterBuilder.build {}) node.lastDecided with
  | .error p => ⟨[], [], [], .error p⟩
  | .ok decided =>
    let hard := HardState.commitEach sha3 ⟨node.manager.dagState, node.lastDecided⟩ decided
    ⟨[], decided, hard.1, hard.2.map fun s =>
      ⟨{ node.manager with dagState := s.dag }, node.softCommit, s.lastDecided⟩⟩

/-- Accept a batch of blocks and run the commit pipeline once. -/
def acceptBlocks (sha3 : List UInt8 → BlockDigest) (node : ConsensusNode) (blocks : List VerifiedBlock) :
    NodeOutcome :=
  let o := node.manager.tryAcceptBlocks blocks
  let soft := o.manager.dagState.checkSoftCommits o.accepted node.softCommit
  let hard := tryHardCommit sha3 ⟨o.manager, soft.2, node.lastDecided⟩
  ⟨o.accepted, hard.decided, soft.1.map (Emission.mk o.manager.dagState) ++ hard.sent, hard.node⟩

/-- `accept_block` is the batch of one. -/
def acceptBlock (sha3 : List UInt8 → BlockDigest) (node : ConsensusNode) (block : VerifiedBlock) :
    NodeOutcome :=
  node.acceptBlocks sha3 [block]

/-- Call after call, until one panics. -/
def run (sha3 : List UInt8 → BlockDigest) (node : ConsensusNode) :
    List (List VerifiedBlock) → NodeOutcome
  | [] => ⟨[], [], [], .ok node⟩
  | batch :: rest =>
    let first := node.acceptBlocks sha3 batch
    match first.node with
    | .error p => ⟨first.accepted, first.decided, first.sent, .error p⟩
    | .ok next =>
      let more := run sha3 next rest
      ⟨first.accepted ++ more.accepted, first.decided ++ more.decided, first.sent ++ more.sent, more.node⟩

end ConsensusNode

end DualOptimistic.Consensus
