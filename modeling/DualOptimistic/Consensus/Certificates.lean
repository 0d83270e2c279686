import DualOptimistic.Consensus.Ledger

/-! Certificates in the code's own terms.

`is_certificate` answers with the help of a cache that earlier calls for the same leader
have filled. In DAGs drawn from one universe its answers never contradict each other: two
leader blocks of a slot are not both certified, and none is if some DAG has a quorum of
blame (`certificates_agree`). The two panics of the committer about equivocation are
therefore unreachable. -/
namespace DualOptimistic.Consensus
open Data

/-- A cache of votes for `leader` as calls on stored blocks of the round have left it. -/
inductive VoteCache (dag : DagState) (leader : VerifiedBlock) (decision : Round) :
    OrdMap BlockRef Bool → Prop
  | empty : VoteCache dag leader decision ∅
  | call {cache cache' : OrdMap BlockRef Bool} {d : VerifiedBlock} {answer : Bool} :
      VoteCache dag leader decision cache → dag.Stores d → d.round = decision →
      dag.isCertificate d leader cache = .ok (answer, cache') → VoteCache dag leader decision cache'

variable {c : Committee} {U : Universe c} {w : WaveNumber}

/-- Asked in `dag` whether the decision block `d` certifies `leader`, a leader block of the
wave, `is_certificate` gives the answer. -/
structure Answers (U : Universe c) (w : WaveNumber) (dag : DagState) (d leader : VerifiedBlock)
    (answer : Bool) : Prop where
  has : U.Has leader
  slot : leader.slot = leaderSlot c w
  stored : dag.Stores d
  round : d.round = 3 * w + 2
  called : ∃ cache cache', VoteCache dag leader (3 * w + 2) cache ∧
    dag.isCertificate d leader cache = .ok (answer, cache')

/-- Whatever was asked before, the cache is true. -/
theorem VoteCache.cached {dag : DagState} (h : dag.Sound) {leader : VerifiedBlock} {decision : Round}
    (hround : decision ≤ leader.round + 2) {cache : OrdMap BlockRef Bool}
    (hcache : VoteCache dag leader decision cache) : dag.VotesCached leader cache := by
  induction hcache with
  | empty => exact DagState.votesCached_empty leader
  | call _ hd hdr hcall ih =>
    obtain ⟨cache', hcached, heq⟩ :=
      DagState.isCertificate_eq h (DagState.getBlock_of_blocks hd) (hdr ▸ hround) ih
    rw [heq] at hcall
    obtain ⟨-, rfl⟩ := Prod.mk.inj (Except.ok.inj hcall)
    exact hcached

/-- **The answer** is whether the votes in the universe are a quorum. -/
theorem Answers.iff {dag : DagState} (h : U.Drawn dag) {d leader : VerifiedBlock} {answer : Bool}
    (hanswer : Answers U w dag d leader answer) :
    answer = true ↔ Certifies c U.block leader.reference d := by
  obtain ⟨-, hslot, hd, hround, cache, cache', hcache, hcall⟩ := hanswer
  have hleader : leader.round = 3 * w := congrArg Slot.round hslot
  have hle : 3 * w + 2 ≤ leader.round + 2 := hleader ▸ le_rfl
  obtain ⟨_, -, heq⟩ := DagState.isCertificate_eq h.sound (DagState.getBlock_of_blocks hd)
    (hround ▸ hle) (hcache.cached h.sound hle)
  rw [heq] at hcall
  obtain ⟨rfl, -⟩ := Prod.mk.inj (Except.ok.inj hcall)
  rw [decide_eq_true_iff, h.committee, h.certifies_iff hd]

/-- The blocks behind an answer of `enough_leader_blame`. -/
theorem blame_quorum {dag : DagState} (h : U.Drawn dag) (hw : 3 * w + 2 < u32Size)
    (hblame : dag.enoughLeaderBlame (3 * w + 1) (leaderSlot c w).authority = true) :
    ∃ B, c.Quorum B ∧ ∀ i ∈ B, ∃ b, U.Has b ∧ b.author = i ∧ b.round = 3 * w + 1 ∧
      b.blames (leaderSlot c w).authority = true := by
  rw [DagState.enoughLeaderBlame, StakeAggregator.addAll_spec, h.committee] at hblame
  refine ⟨_, hblame, fun i hi => ?_⟩
  rw [List.mem_toFinset, List.mem_map] at hi
  obtain ⟨b, hb, rfl⟩ := hi
  obtain ⟨hmem, hblames⟩ := List.mem_filter.mp hb
  obtain ⟨hstored, hround, -⟩ := (DagState.mem_getUncommittedBlocksAtRound hw).mp hmem
  exact ⟨b, h.has hstored, rfl, hround, hblames⟩

/-- **Certificates agree.** In any DAGs drawn from one universe, and for any leader slot with a
decision round: at most one leader block of the slot is certified, none is if one of the DAGs
has enough blame for the slot, and neither rule of the committer panics over two of them. -/
theorem certificates_agree (U : Universe c) (hw : 3 * w + 2 < u32Size) :
    (∀ {dag dag' : DagState} {d d' leader leader' : VerifiedBlock}, U.Drawn dag → U.Drawn dag' →
      Answers U w dag d leader true → Answers U w dag' d' leader' true → leader = leader') ∧
    (∀ {dag dag' : DagState} {d leader : VerifiedBlock}, U.Drawn dag → U.Drawn dag' →
      dag.enoughLeaderBlame (3 * w + 1) (leaderSlot c w).authority = true →
      ¬ Answers U w dag' d leader true) ∧
    ∀ {dag : DagState}, U.Drawn dag →
      (∀ slot, dag.tryDirectDecide {} (leaderSlot c w) ≠ .error (.moreThanOneCandidate slot)) ∧
      ∀ anchor slot, dag.decideLeaderFromAnchor {} anchor (leaderSlot c w) ≠
        .error (.moreThanOneCertified slot) := by
  refine ⟨fun {dag dag' d d' leader leader'} h h' hcert hcert' => ?_,
    fun {dag dag' d leader} h h' hblame hcert => ?_, fun {dag} h => ?_⟩
  · have hslot : leader.reference.slot = leader'.reference.slot := hcert.slot.trans hcert'.slot.symm
    have hround : leader.reference.round = 3 * w := congrArg Slot.round hcert.slot
    have href := Universe.certifies_unique hslot (h.has hcert.stored) (h'.has hcert'.stored)
      (hround ▸ hcert.round) (hround ▸ hcert'.round) ((hcert.iff h).mp rfl) ((hcert'.iff h').mp rfl)
    exact hcert.has.eq hcert'.has href
  · obtain ⟨B, hB, hblames⟩ := blame_quorum h hw hblame
    have hround : leader.reference.round = 3 * w := congrArg Slot.round hcert.slot
    have hauthor : leader.reference.author = (leaderSlot c w).authority :=
      congrArg Slot.authority hcert.slot
    rw [← hauthor, ← hround] at hblames
    exact Universe.not_certifies_of_blame hB hblames (h'.has hcert.stored) (hround ▸ hcert.round)
      ((hcert.iff h').mp rfl)
  · rw [← h.committee]
    refine ⟨fun slot => ?_, fun anchor slot => ?_⟩
    · rw [DagState.tryDirectDecide_eq h.sound h.unequivocal hw]
      exact fun heq => (by cases heq)
    · rw [(DagState.seenLeader_spec h.sound h.unequivocal hw anchor).1]
      exact fun heq => (by cases heq)

/-- In a chain of five the last link certifies the third, and nothing certifies another. -/
theorem certificates_agree_chain :
    let dag := (DagState.new (fun _ => 0) (Committee.equal 0)).acceptBlocks
      [link 0, link 1, link 2, link 3, link 4]
    chain.Drawn dag ∧ Answers chain 1 dag (link 4) (link 2) true ∧
      (∀ d leader, Answers chain 1 dag d leader true → leader = link 2) ∧
      ∀ slot, dag.tryDirectDecide {} (leaderSlot (Committee.equal 0) 1) ≠ .error (.moreThanOneCandidate slot) := by
  intro dag
  have hdrawn : chain.Drawn dag :=
    ((Universe.drawn_new (fun _ => 0) chain).acceptBlocks (by decide +kernel) (by decide +kernel)).1
  have hanswer : Answers chain 1 dag (link 4) (link 2) true := by
    have hcall : ((dag.isCertificate (link 4) (link 2) ∅).map Prod.fst) = .ok true := by decide +kernel
    have hstored : dag.blocks.map.get? (link 4).reference = some (link 4) := by decide +kernel
    refine ⟨by decide, by decide, hstored, by decide, ∅, ?_⟩
    cases hres : dag.isCertificate (link 4) (link 2) ∅ with
    | error p =>
      rw [hres] at hcall
      cases hcall
    | ok result =>
      rw [hres] at hcall
      exact ⟨result.2, .empty, congrArg Except.ok (Prod.ext (Except.ok.inj hcall) rfl)⟩
  have hagree := certificates_agree chain (w := 1) (by decide)
  exact ⟨hdrawn, hanswer, fun d leader h => hagree.1 hdrawn hdrawn h hanswer, (hagree.2.2 hdrawn).1⟩

end DualOptimistic.Consensus
