import DualOptimistic.Consensus.DagState

/-! The commit rules of one committer (`consensus/src/base_committer.rs`, `commit.rs`).

A wave has a leader round, a voting round and a decision round. A leader is skipped
directly if a quorum of voting blocks lists nobody of the leader's authority, and
committed directly if a quorum of decision blocks certifies it; otherwise an already
committed leader of a later wave decides, by the certificates in its history. What
panics in the source is an error here. -/
namespace DualOptimistic.Consensus
open Data

/-! ### Statuses -/

/-- Index of a wave. -/
abbrev WaveNumber := Nat

/-- The status of a leader slot from the direct and indirect commit rules. -/
inductive LeaderStatus where
  | commit (block : VerifiedBlock)
  | skip (slot : Slot)
  | undecided (slot : Slot)
deriving DecidableEq

/-- Decision of each leader slot; the flag says whether a commit was direct. -/
inductive DecidedLeader where
  | commit (block : VerifiedBlock) (direct : Bool)
  | skip (slot : Slot)
deriving DecidableEq

/-- Whether a decision was reached via the direct or the indirect rule. -/
inductive Decision where
  | direct
  | indirect
deriving DecidableEq

namespace LeaderStatus

def round : LeaderStatus → Round
  | commit block => block.round
  | skip leader => leader.round
  | undecided leader => leader.round

def isDecided : LeaderStatus → Bool
  | undecided _ => false
  | _ => true

def intoDecidedLeader (direct : Bool) : LeaderStatus → Option DecidedLeader
  | commit block => some (.commit block direct)
  | skip slot => some (.skip slot)
  | undecided _ => none

end LeaderStatus

def DecidedLeader.slot : DecidedLeader → Slot
  | commit block _ => block.slot
  | skip slot => slot

/-- We need at least one leader round, one voting round, and one decision round. -/
def minimumWaveLength : Round := 3

def defaultWaveLength : Round := minimumWaveLength

structure BaseCommitterOptions where
  waveLength : Round := defaultWaveLength
  /-- Selects a different leader per committer. -/
  leaderOffset : Nat := 0
  /-- Shifts when a committer looks for a leader. -/
  roundOffset : Round := 0

namespace BaseCommitterOptions
variable (o : BaseCommitterOptions)

/-! ### Waves and leaders -/

def leaderRound (wave : WaveNumber) : Round := wave * o.waveLength + o.roundOffset

def decisionRound (wave : WaveNumber) : Round :=
  wave * o.waveLength + o.waveLength - 1 + o.roundOffset

def waveNumber (round : Round) : WaveNumber := (round - o.roundOffset) / o.waveLength

end BaseCommitterOptions

/-- Round robin, starting from round and offset. -/
def electLeaderIndex (c : Committee) (round : Round) (offset : Nat) : AuthorityIndex :=
  (round + offset) % u32Size % c.size

/-- The leader slot of `round`, if this committer is responsible for it. -/
def electLeader (c : Committee) (o : BaseCommitterOptions) (round : Round) : Option Slot :=
  if o.leaderRound (o.waveNumber round) ≠ round then none
  else some ⟨round, electLeaderIndex c round o.leaderOffset⟩

namespace DagState
variable (dag : DagState)

/-! ### Votes and certificates -/

/-- The second loop of `find_supported_block`: what the first supporting ancestor above
the leader round supports. -/
def firstSupport (leaderSlot : Slot) (support : VerifiedBlock → Except Panic (Option BlockRef)) :
    List BlockRef → Except Panic (Option BlockRef)
  | [] => .ok none
  | a :: rest =>
    if a.round ≤ leaderSlot.round then firstSupport leaderSlot support rest
    else
      match dag.getBlock a with
      | none => .error (.blockNotFound a)
      | some b => do
        match ← support b with
        | some r => pure (some r)
        | none => firstSupport leaderSlot support rest

/-- The block at the leader slot that `source` supports, directly or through its
ancestors. The recursion goes down in rounds, so the round bounds its depth. -/
def findSupportedBlock (leaderSlot : Slot) : Nat → VerifiedBlock → Except Panic (Option BlockRef)
  | 0, _ => .error .outOfFuel
  | depth + 1, source =>
    if source.round < leaderSlot.round then .ok none
    else
      match source.ancestors.find? fun a => decide (a.slot = leaderSlot) with
      | some a => .ok (some a)
      | none => dag.firstSupport leaderSlot (findSupportedBlock leaderSlot depth) source.ancestors

def isVote (potentialVote leaderBlock : VerifiedBlock) : Except Panic Bool := do
  let supported ← dag.findSupportedBlock leaderBlock.reference.slot (potentialVote.round + 1) potentialVote
  pure (decide (supported = some leaderBlock.reference))

/-- Whether the block behind a reference votes; only at or below the garbage-collection
round may it be absent. -/
def refIsVote (leaderBlock : VerifiedBlock) (r : BlockRef) : Except Panic Bool :=
  match dag.getBlock r with
  | some potentialVote => dag.isVote potentialVote leaderBlock
  | none => if r.round ≤ dag.gcRound then .ok false else .error (.notInDag r)

/-- The loop of `is_certificate`, with the votes found so far remembered by reference. -/
def countVotes (leaderBlock : VerifiedBlock) : List BlockRef → StakeAggregator →
    OrdMap BlockRef Bool → Except Panic (Bool × OrdMap BlockRef Bool)
  | [], _, allVotes => .ok (false, allVotes)
  | r :: rest, votesStake, allVotes => do
    let (vote, allVotes) ← match allVotes.get? r with
      | some cached => pure (cached, allVotes)
      | none => do
        let vote ← dag.refIsVote leaderBlock r
        pure (vote, allVotes.insert r vote)
    if vote then
      if (votesStake.add r.author dag.committee).1 then pure (true, allVotes)
      else countVotes leaderBlock rest (votesStake.add r.author dag.committee).2 allVotes
    else countVotes leaderBlock rest votesStake allVotes

def isCertificate (potentialCertificate leaderBlock : VerifiedBlock) (allVotes : OrdMap BlockRef Bool) :
    Except Panic (Bool × OrdMap BlockRef Bool) :=
  dag.countVotes leaderBlock potentialCertificate.ancestors .new allVotes

/-- Whether one of the blocks is a certificate, in order. -/
def anyCertificate (leaderBlock : VerifiedBlock) :
    List VerifiedBlock → OrdMap BlockRef Bool → Except Panic Bool
  | [], _ => .ok false
  | b :: rest, allVotes => do
    let (certificate, allVotes) ← dag.isCertificate b leaderBlock allVotes
    if certificate then pure true else anyCertificate leaderBlock rest allVotes

/-- The loop of `enough_leader_support`. -/
def countCertificates (leaderBlock : VerifiedBlock) : List VerifiedBlock → StakeAggregator →
    OrdMap BlockRef Bool → Except Panic Bool
  | [], _, _ => .ok false
  | b :: rest, support, allVotes => do
    let (certificate, allVotes) ← dag.isCertificate b leaderBlock allVotes
    if certificate then
      if (support.add b.author dag.committee).1 then pure true
      else countCertificates leaderBlock rest (support.add b.author dag.committee).2 allVotes
    else countCertificates leaderBlock rest support allVotes

def enoughLeaderSupport (decisionRound : Round) (leaderBlock : VerifiedBlock) : Except Panic Bool :=
  dag.countCertificates leaderBlock (dag.getUncommittedBlocksAtRound decisionRound) .new ∅

/-- Whether a quorum of voting blocks lists no block of the leader's authority, of any
round. -/
def enoughLeaderBlame (votingRound : Round) (leader : AuthorityIndex) : Bool :=
  StakeAggregator.addAll dag.committee .new
    (((dag.getUncommittedBlocksAtRound votingRound).filter fun b =>
      b.ancestors.all fun a => a.author != leader).map VerifiedBlock.author)

/-! ### The two rules -/

/-- Direct-decide rule. -/
def tryDirectDecide (o : BaseCommitterOptions) (leader : Slot) : Except Panic LeaderStatus :=
  if dag.enoughLeaderBlame (leader.round + 1) leader.authority then .ok (.skip leader)
  else do
    let supported ← filterOk (dag.enoughLeaderSupport (o.decisionRound (o.waveNumber leader.round)))
      (dag.getUncommittedBlocksAtSlot leader)
    match supported with
    | [] => pure (.undecided leader)
    | [b] => pure (.commit b)
    | _ => .error (.moreThanOneCandidate leader)

def decideLeaderFromAnchor (o : BaseCommitterOptions) (anchor : VerifiedBlock) (leaderSlot : Slot) :
    Except Panic LeaderStatus := do
  let potentialCertificates ←
    dag.ancestorsAtRound anchor (o.decisionRound (o.waveNumber leaderSlot.round))
  let certified ← filterOk (fun b => dag.anyCertificate b potentialCertificates ∅)
    (dag.getUncommittedBlocksAtSlot leaderSlot)
  match certified with
  | [] => pure (.skip leaderSlot)
  | [b] => pure (.commit b)
  | _ => .error (.moreThanOneCertified leaderSlot)

/-- Indirect-decide rule: the first later leader that is not skipped decides, if it is
committed. -/
def tryIndirectDecide (o : BaseCommitterOptions) (leaderSlot : Slot) :
    List LeaderStatus → Except Panic LeaderStatus
  | [] => .ok (.undecided leaderSlot)
  | anchor :: rest =>
    if leaderSlot.round + o.waveLength ≤ anchor.round then
      match anchor with
      | .commit anchorBlock => dag.decideLeaderFromAnchor o anchorBlock leaderSlot
      | .skip _ => tryIndirectDecide o leaderSlot rest
      | .undecided _ => .ok (.undecided leaderSlot)
    else tryIndirectDecide o leaderSlot rest

end DagState

end DualOptimistic.Consensus
