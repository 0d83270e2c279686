import DualOptimistic.Consensus.CommittedFilter
import DualOptimistic.Consensus.Payload

/-! What it takes for the commit path not to panic.

Nothing upstream of the linearizer looks at how often a block lists a reference. The walk of
`linearize_sub_dag` filters out committed ancestors before it marks any, so a reference that
a block lists twice is pushed twice, and the second time the assertion fails; the read-only
walk `get_causal_blocks` marks one by one and does not mind. Where no delivered block does
this above genesis, every call of a run in causal order returns, whatever the blocks list
otherwise (`run_returns`); one such block ends the node (`repeated_ancestor_panics`). -/
namespace DualOptimistic.Consensus
open Data

/-! ### Calls that return -/

/-- The node commits as the committing half alone does. -/
theorem commitEach_of_commitDecided {sha3 : List UInt8 → BlockDigest} {s s' : HardState}
    {decided : List DecidedLeader} {subDags : List CommittedSubDag}
    (h : s.commitDecided sha3 decided = .ok (subDags, s')) : (s.commitEach sha3 decided).2 = .ok s' := by
  induction decided generalizing s subDags with
  | nil =>
    obtain ⟨-, rfl⟩ := Prod.mk.inj (Except.ok.inj h)
    rfl
  | cons d rest ih =>
    cases d with
    | skip slot => exact ih h
    | commit b direct =>
      rw [HardState.commitDecided] at h
      obtain ⟨⟨subDag, dag⟩, hcommit, h⟩ := except_bind_ok_iff.mp h
      obtain ⟨⟨more, last⟩, hrest, h⟩ := except_bind_ok_iff.mp h
      obtain ⟨-, rfl⟩ := Prod.mk.inj (Except.ok.inj h)
      rw [HardState.commitEach, hcommit]
      exact ih hrest

section Universe
variable {sha3 : List UInt8 → BlockDigest} {c : Committee} {U : Universe c}

/-- **One call returns.** -/
theorem CausalNode.returns (hlinks : U.LinksDistinct) {accepted : List VerifiedBlock}
    {verdicts : List (Option VerifiedBlock)} {sent : List Emission} {node : ConsensusNode}
    (hsettled : Settled c accepted verdicts sent node) (h : CausalNode U node) {batch : List VerifiedBlock}
    (hbatch : ∀ b ∈ batch, U.Has b) (hcausal : node.manager.dagState.CausalOrder (BlockManager.sortByRound batch)) :
    ∃ next, (node.acceptBlocks sha3 batch).node = .ok next := by
  obtain ⟨⟨-, hdrawn, -⟩, -⟩ := h.tryAcceptBlocks hsettled.logged.registered hbatch hcausal
  have hcommitted : ∀ r ∈ (node.manager.tryAcceptBlocks batch).manager.dagState.committed,
      r.round ≤ 3 * verdicts.length := hsettled.committed_accepted batch
  have hlast : node.lastDecided = leaderSlot c verdicts.length := hsettled.logged.hard.lastDecided
  obtain ⟨decided, vs, hdecide, hlabel, -, hleaders⟩ := hdrawn.tryDecide_returns verdicts.length
  rw [← hlast] at hdecide
  obtain ⟨subDags, t, digest, hcommit, -⟩ :=
    @Universe.Drawn.commitDecided_eq sha3 c U hlinks
      ⟨(node.manager.tryAcceptBlocks batch).manager.dagState, node.lastDecided⟩ hdrawn _ hlast hcommitted
      decided vs hlabel hleaders
  unfold ConsensusNode.acceptBlocks ConsensusNode.tryHardCommit
  dsimp only
  rw [hdecide]
  dsimp only
  rw [commitEach_of_commitDecided hcommit]
  exact ⟨_, rfl⟩

/-- **Every call returns.** -/
theorem CausalNode.run_ok (hlinks : U.LinksDistinct) {accepted : List VerifiedBlock}
    {verdicts : List (Option VerifiedBlock)} {sent : List Emission} {node : ConsensusNode}
    (hsettled : Settled c accepted verdicts sent node) (h : CausalNode U node)
    {batches : List (List VerifiedBlock)} (hbatches : ∀ b ∈ batches.flatten, U.Has b)
    (hcausal : node.manager.dagState.CausalOrder (BlockManager.processed batches)) :
    ∃ last, (node.run sha3 batches).node = .ok last := by
  induction batches generalizing accepted verdicts sent node with
  | nil => exact ⟨node, rfl⟩
  | cons batch rest ih =>
    rw [List.flatten_cons] at hbatches
    obtain ⟨hfirst, hlater⟩ := hcausal.split
    have hbatch : ∀ b ∈ batch, U.Has b := fun b hb => hbatches b (List.mem_append_left _ hb)
    obtain ⟨next, hnext⟩ := h.returns hlinks hsettled hbatch hfirst
    obtain ⟨hnode, hsame⟩ := (h.acceptBlocks hlinks hsettled.logged hbatch hfirst).2 next hnext
    obtain ⟨_, _, _, hsettled'⟩ := hsettled.acceptBlocks (fun b hb a ha => (hbatch b hb).lower ha) hnext
    obtain ⟨last, hrest⟩ :=
      ih hsettled' hnode (fun b hb => hbatches b (List.mem_append_right _ hb)) (hlater.congr hsame)
    unfold ConsensusNode.run
    dsimp only
    rw [hnext]
    exact ⟨last, hrest⟩

end Universe

open Classical in
/-- **No block crashes the commit path**, if none lists a reference above genesis twice. In
every run fed from a universe in causal order and in any batching, every call returns:
the blocks may list several blocks of an author, any number of parents, and references of
round 0 that are not there, or repeat these. -/
theorem run_returns (sha3 : List UInt8 → BlockDigest) {c : Committee} (U : Universe c)
    {batches : List (List VerifiedBlock)} (hfed : ∀ b ∈ batches.flatten, U.Has b)
    (hcausal : (DagState.new sha3 c).CausalOrder (BlockManager.processed batches))
    (hlinks : ∀ b ∈ batches.flatten, (b.ancestors.filter fun a => decide (0 < a.round)).Nodup) :
    ∃ node, ((ConsensusNode.new sha3 c).run sha3 batches).node = .ok node := by
  have hrestricted : (U.restrict (fedRefs batches.flatten)).LinksDistinct := by
    intro r
    cases hb : (U.restrict (fedRefs batches.flatten)).block r with
    | none =>
      rw [links, hb]
      exact List.nodup_nil
    | some b =>
      obtain ⟨⟨x, hx, hxr⟩, hhas⟩ := Universe.restrict_has.mp (Universe.has_of_block hb)
      obtain rfl : x = b := (hfed x hx).eq hhas hxr
      rw [links, hb]
      exact hlinks x hx
  exact (causalNode_new sha3 (U.restrict (fedRefs batches.flatten))).run_ok hrestricted (settled_new sha3 c)
    (fun b hb => Universe.restrict_has.mpr ⟨⟨b, hb, rfl⟩, hfed b hb⟩) hcausal

/-! ### A block that does -/

theorem four_lt : 3 + 1 < u32Size - 1 := by decide

/-- Four authorities of stake one. -/
def fourAuthorities : Committee := .equal 3 four_lt

theorem round_mod_lt (round : Nat) : round % u32Size < u32Size := Nat.mod_lt _ (by decide)

/-- A block without transactions and with digest 0. -/
def plainBlock (round : Nat) (author : AuthorityIndex) (ancestors : List BlockRef) : VerifiedBlock :=
  ⟨{ round := round % u32Size, author := author, ancestors := ancestors, round_lt := round_mod_lt round }, 0⟩

/-- Of four authorities one leads round 3 with a block that lists its parent `n` times; the
others vote for it and certify it. The parent lists a block of round 0 that is not there. -/
def repeating (n : Nat) : List VerifiedBlock :=
  let votes : List BlockRef := [.new 4 0 0, .new 4 1 0, .new 4 2 0]
  [plainBlock 2 0 [.new 0 9 0], plainBlock 3 3 (List.replicate n (.new 2 0 0)),
    plainBlock 4 0 [.new 3 3 0], plainBlock 4 1 [.new 3 3 0], plainBlock 4 2 [.new 3 3 0],
    plainBlock 5 0 votes, plainBlock 5 1 votes, plainBlock 5 2 votes]

def repeatingOnce : Universe fourAuthorities :=
  .ofBlocks fourAuthorities (repeating 1) ∅ (by decide) (by decide) (by decide) (by decide)

def repeatingTwice : Universe fourAuthorities :=
  .ofBlocks fourAuthorities (repeating 2) ∅ (by decide) (by decide) (by decide) (by decide)

/-- A parent listed once: the leader is committed. -/
theorem run_returns_once :
    let o := (ConsensusNode.new (fun _ => 0) fourAuthorities).run (fun _ => 0) [repeating 1]
    o.decided = [.commit (plainBlock 3 3 [.new 2 0 0]) true] ∧ ∃ node, o.node = .ok node := by
  exact ⟨by decide +kernel,
    run_returns _ repeatingOnce (by decide +kernel) (by decide +kernel) (by decide +kernel)⟩

/-- A parent listed twice: the node panics when the leader is committed. -/
theorem repeated_ancestor_panics :
    let o := (ConsensusNode.new (fun _ => 0) fourAuthorities).run (fun _ => 0) [repeating 2]
    ((∀ b ∈ repeating 2, repeatingTwice.Has b) ∧
      (DagState.new (fun _ => 0) fourAuthorities).CausalOrder (BlockManager.processed [repeating 2])) ∧
      o.node = .error (.committedTwice (.new 2 0 0)) := by
  intro o
  refine ⟨⟨by decide +kernel, by decide +kernel⟩, ?_⟩
  have hpanic : (o.node.map fun _ => ()) = .error (.committedTwice (.new 2 0 0)) := by decide +kernel
  cases hnode : o.node with
  | error p =>
    rw [hnode] at hpanic
    exact congrArg Except.error (Except.error.inj hpanic)
  | ok node =>
    rw [hnode] at hpanic
    cases hpanic

end DualOptimistic.Consensus
