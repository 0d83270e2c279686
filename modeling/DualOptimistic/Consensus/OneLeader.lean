import DualOptimistic.Consensus.Ledger
import DualOptimistic.Consensus.NodeRun

/-! One leader per round across both signals.

`check_soft_commit` counts a vote for every block of the leader slot that a voting block
lists, the committer only for the first of them. A voting block that lists two leader
blocks of an equivocating authority therefore votes early for both, and a round has one
leader in all events exactly as long as no slot has two blocks with a quorum of such votes
(`run_oneLeader_iff`). A block with such a quorum is announced early once, and no other is
(`run_softCommit_exact`). -/
namespace DualOptimistic.Consensus
open Data

/-- The events of a leader round agree on its leader, and one of them at most is early. -/
structure OneLeader (events : List ConsensusEvent) : Prop where
  same : ∀ e ∈ events, ∀ e' ∈ events, e.round = e'.round → e.leader = e'.leader
  once : ((events.filter ConsensusEvent.isSoft).map ConsensusEvent.round).Nodup

/-- The authors of the blocks one round up that list the reference. -/
def listers (blocks : List VerifiedBlock) (leader : BlockRef) : Finset AuthorityIndex :=
  ((blocks.filter fun b => decide (b.round = leader.round + 1 ∧ leader ∈ b.ancestors)).map
    VerifiedBlock.author).toFinset

/-- Two blocks of a leader slot are each listed, one round up, by a quorum of authors. -/
def Contested (c : Committee) (blocks : List VerifiedBlock) : Prop :=
  ∃ w leader leader', 0 < w ∧ leader.slot = leaderSlot c w ∧ leader'.slot = leaderSlot c w ∧
    leader ≠ leader' ∧ c.Quorum (listers blocks leader) ∧ c.Quorum (listers blocks leader')

variable {c : Committee} {blocks : List VerifiedBlock} {sent : List Emission}

theorem votersOf_castVotes {w : Nat} (hw : 0 < w) {leader : BlockRef} (hslot : leader.slot = leaderSlot c w) :
    SoftCommitTracker.votersOf (castVotes c blocks) leader = listers blocks leader := by
  have hround : leader.round = 3 * w := congrArg Slot.round hslot
  ext i
  rw [SoftCommitTracker.mem_votersOf, mem_castVotes, listers, List.mem_toFinset, List.mem_map]
  constructor
  · intro h
    obtain ⟨w', -, hslot', b, hb, hbi, hbround, hlisted⟩ := h
    have hround' : leader.round = 3 * w' := congrArg Slot.round hslot'
    refine ⟨b, List.mem_filter.mpr ⟨hb, decide_eq_true ⟨?_, hlisted⟩⟩, hbi⟩
    rw [hbround, hround']
  · intro h
    obtain ⟨b, hb, hbi⟩ := h
    obtain ⟨hb, hcond⟩ := List.mem_filter.mp hb
    obtain ⟨hbround, hlisted⟩ := of_decide_eq_true hcond
    exact ⟨w, hw, hslot, b, hb, hbi, hbround.trans (by rw [hround]), hlisted⟩

/-- A quorum of early votes is one for a block of a leader slot. -/
theorem quorum_castVotes_iff {leader : BlockRef} :
    c.Quorum (SoftCommitTracker.votersOf (castVotes c blocks) leader) ↔
      ∃ w, 0 < w ∧ leader.slot = leaderSlot c w ∧ c.Quorum (listers blocks leader) := by
  constructor
  · intro h
    obtain ⟨i, hi⟩ := h.nonempty
    obtain ⟨w, hw, hslot, -⟩ := mem_castVotes.mp (SoftCommitTracker.mem_votersOf.mp hi)
    rw [votersOf_castVotes hw hslot] at h
    exact ⟨w, hw, hslot, h⟩
  · intro h
    obtain ⟨w, hw, hslot, hquorum⟩ := h
    rwa [votersOf_castVotes hw hslot]

theorem softRounds_eq (hreads : ∀ e ∈ sent, e.Reads) :
    ((sent.map Emission.event).filter ConsensusEvent.isSoft).map ConsensusEvent.round =
      (softLeaders sent).map BlockRef.round := by
  induction sent with
  | nil => rfl
  | cons e rest ih =>
    have hrest := ih fun x hx => hreads x (List.mem_cons_of_mem _ hx)
    have hread := hreads e (List.mem_cons_self ..)
    rw [softLeaders, List.filterMap_cons, List.map_cons]
    unfold Emission.Reads at hread
    cases hevent : e.event with
    | softCommit round leader txs =>
      rw [hevent] at hread
      rw [List.filter_cons_of_pos rfl, List.map_cons, hrest]
      exact congrArg (· :: _) hread.1
    | hardCommit subdag =>
      rw [List.filter_cons_of_neg Bool.false_ne_true, hrest]
      rfl

/-- Where committed leaders were sent early, every event is about a leader with a quorum of
early votes. -/
theorem NodeLog.event_leader {verdicts : List (Option VerifiedBlock)} (h : NodeLog c blocks verdicts sent)
    (hfirst : SoftFirst sent) {e : Emission} (he : e ∈ sent) :
    e.event.leader ∈ softLeaders sent ∧ e.event.round = e.event.leader.round := by
  have hread := h.reads e he
  unfold Emission.Reads at hread
  cases hevent : e.event with
  | softCommit round leader txs =>
    rw [hevent] at hread
    exact ⟨mem_softLeaders.mpr ⟨e, he, round, txs, hevent⟩, hread.1⟩
  | hardCommit subdag =>
    obtain ⟨before, after, hsplit⟩ := List.append_of_mem he
    refine ⟨?_, rfl⟩
    rw [hsplit, softLeaders_append]
    exact List.mem_append_left _ (hfirst before e after subdag hsplit hevent)

theorem NodeLog.oneLeader_iff {verdicts : List (Option VerifiedBlock)} (h : NodeLog c blocks verdicts sent)
    (hlower : ∀ b ∈ blocks, ∀ a ∈ b.ancestors, a.round < b.round) :
    OneLeader (sent.map Emission.event) ↔ ¬ Contested c blocks := by
  have hfirst := h.early hlower
  constructor
  · intro hone hcontested
    obtain ⟨w, leader, leader', hw, hslot, hslot', hne, hquorum, hquorum'⟩ := hcontested
    have hsent : ∀ l, l.slot = leaderSlot c w → c.Quorum (listers blocks l) →
        ∃ e ∈ sent.map Emission.event, e.leader = l ∧ e.round = 3 * w := by
      intro l hl hq
      obtain ⟨e, he, round, txs, hevent⟩ :=
        mem_softLeaders.mp ((h.quorums l).mpr (quorum_castVotes_iff.mpr ⟨w, hw, hl, hq⟩))
      refine ⟨e.event, List.mem_map_of_mem he, by rw [hevent]; rfl, ?_⟩
      rw [(h.event_leader hfirst he).2, hevent]
      exact congrArg Slot.round hl
    obtain ⟨e, he, hleader, hround⟩ := hsent leader hslot hquorum
    obtain ⟨e', he', hleader', hround'⟩ := hsent leader' hslot' hquorum'
    have hsame := hone.same e he e' he' (hround.trans hround'.symm)
    rw [hleader, hleader'] at hsame
    exact hne hsame
  · intro hcontested
    -- the leaders sent early have quorums, so two of one round are the same
    have hunique : ∀ l ∈ softLeaders sent, ∀ l' ∈ softLeaders sent, l.round = l'.round → l = l' := by
      intro l hl l' hl' hround
      obtain ⟨w, hw, hslot, hquorum⟩ := quorum_castVotes_iff.mp ((h.quorums l).mp hl)
      obtain ⟨w', -, hslot', hquorum'⟩ := quorum_castVotes_iff.mp ((h.quorums l').mp hl')
      have hwave : 3 * w = 3 * w' := by
        rw [← show l.round = 3 * w from congrArg Slot.round hslot, hround]
        exact congrArg Slot.round hslot'
      obtain rfl : w = w' := Nat.eq_of_mul_eq_mul_left (by decide) hwave
      by_contra hne
      exact hcontested ⟨w, l, l', hw, hslot, hslot', hne, hquorum, hquorum'⟩
    refine ⟨fun e he e' he' hround => ?_, ?_⟩
    · obtain ⟨x, hx, rfl⟩ := List.mem_map.mp he
      obtain ⟨x', hx', rfl⟩ := List.mem_map.mp he'
      obtain ⟨hleader, hxround⟩ := h.event_leader hfirst hx
      obtain ⟨hleader', hxround'⟩ := h.event_leader hfirst hx'
      rw [hxround, hxround'] at hround
      exact hunique _ hleader _ hleader' hround
    · rw [softRounds_eq h.reads]
      exact List.Nodup.map_on hunique h.once

/-! ### Exactly one early commit -/

/-- The number of SoftCommits with the leader. -/
def softCommitsOf (leader : BlockRef) (events : List ConsensusEvent) : Nat :=
  events.countP fun e => e.isSoft && decide (e.leader = leader)

theorem softCommitsOf_events (leader : BlockRef) (sent : List Emission) :
    softCommitsOf leader (sent.map Emission.event) = (softLeaders sent).count leader := by
  rw [softCommitsOf, List.countP_map, softLeaders, List.count, List.countP_filterMap]
  refine List.countP_congr fun e _ => ?_
  show (e.event.isSoft && decide (e.event.leader = leader)) = true ↔ _
  cases e.event with
  | softCommit round other txs =>
    show decide (other = leader) = true ↔ (other == leader) = true
    rw [decide_eq_true_iff, beq_iff_eq]
  | hardCommit subdag => simp [ConsensusEvent.isSoft]

/-- **Early commits are exact.** Whatever blocks with ancestors of lower rounds are delivered, in
whatever order and batching, a block of a leader slot is sent early once if the accepted blocks
of the next round that list it are by a quorum of authors, and not at all otherwise; and if it is
committed, it was sent early before. -/
theorem run_softCommit_exact (sha3 : List UInt8 → BlockDigest) (c : Committee)
    {batches : List (List VerifiedBlock)}
    (hlower : ∀ b ∈ batches.flatten, ∀ a ∈ b.ancestors, a.round < b.round) :
    let o := (ConsensusNode.new sha3 c).run sha3 batches
    ∀ w leader, 0 < w → leader.slot = leaderSlot c w →
      softCommitsOf leader o.events = (if c.Quorum (listers o.accepted leader) then 1 else 0) ∧
      ∀ before subdag after, o.events = before ++ .hardCommit subdag :: after → subdag.leader = leader →
        softCommitsOf leader before = 1 := by
  intro o w leader hw hslot
  obtain ⟨verdicts, -, hlog⟩ := run_log sha3 c batches
  have hdelivered : ∀ b ∈ o.accepted, b ∈ batches.flatten :=
    mem_run_accepted (BlockManager.registered_new _) (fun k s hs => (by cases hs)) fun b hb => hb
  have hfirst : SoftFirst o.sent := hlog.early fun b hb => hlower b (hdelivered b hb)
  have hmem : leader ∈ softLeaders o.sent ↔ c.Quorum (listers o.accepted leader) := by
    rw [hlog.quorums, votersOf_castVotes hw hslot]
  constructor
  · rw [NodeOutcome.events, softCommitsOf_events]
    split_ifs with hquorum
    · exact List.count_eq_one_of_mem hlog.once (hmem.mpr hquorum)
    · exact List.count_eq_zero_of_not_mem fun hsent => hquorum (hmem.mp hsent)
  · intro before subdag after hsplit hleader
    obtain ⟨front, tail, hsent, rfl, htail⟩ := List.map_eq_append_iff.mp hsplit
    obtain ⟨e, back, rfl, hevent, -⟩ := List.map_eq_cons_iff.mp htail
    have hearly : leader ∈ softLeaders front := hleader ▸ hfirst front e back subdag hsent hevent
    have honce := hlog.once
    rw [hsent, softLeaders_append] at honce
    rw [softCommitsOf_events]
    exact List.count_eq_one_of_mem (List.nodup_append.mp honce).1 hearly

/-- The third link of a chain is sent early once, and then committed. -/
theorem run_softCommit_chain :
    let o := (ConsensusNode.new (fun _ => 0) (Committee.equal 0)).run (fun _ => 0)
      [[link 0, link 1], [link 2, link 3, link 4]]
    (Committee.equal 0).Quorum (listers o.accepted (link 2).reference) ∧
      softCommitsOf (link 2).reference o.events = 1 := by
  intro o
  have hquorum : (Committee.equal 0).Quorum (listers o.accepted (link 2).reference) := by decide +kernel
  refine ⟨hquorum, ?_⟩
  have hlower : ∀ b ∈ [[link 0, link 1], [link 2, link 3, link 4]].flatten, ∀ a ∈ b.ancestors,
      a.round < b.round := by decide
  have hexact := (run_softCommit_exact (fun _ => 0) (Committee.equal 0) hlower 1 (link 2).reference (by decide)
    (by decide)).1
  rwa [if_pos hquorum] at hexact

/-! ### One leader per round -/

/-- **One leader per round.** In a run fed from a universe, in whatever order and batching,
all events of a leader round carry one leader, and one of them at most is a SoftCommit,
exactly if no two blocks of a leader slot are each listed, among the accepted blocks of the
next round, by a quorum of authors. What is accepted was delivered. -/
theorem run_oneLeader_iff (sha3 : List UInt8 → BlockDigest) {c : Committee} (U : Universe c)
    {batches : List (List VerifiedBlock)} (hfed : ∀ b ∈ batches.flatten, U.Has b) :
    let o := (ConsensusNode.new sha3 c).run sha3 batches
    (OneLeader o.events ↔ ¬ Contested c o.accepted) ∧ ∀ b ∈ o.accepted, b ∈ batches.flatten := by
  intro o
  have hdelivered : ∀ b ∈ o.accepted, b ∈ batches.flatten :=
    mem_run_accepted (BlockManager.registered_new _) (fun k s hs => (by cases hs)) fun b hb => hb
  obtain ⟨verdicts, -, hlog⟩ := run_log sha3 c batches
  exact ⟨hlog.oneLeader_iff fun b hb a ha => (hfed b (hdelivered b hb)).lower ha, hdelivered⟩

/-- The third link of a chain is the one leader of its round. -/
theorem run_oneLeader_chain :
    let o := (ConsensusNode.new (fun _ => 0) (Committee.equal 0)).run (fun _ => 0)
      [[link 0, link 1], [link 2, link 3, link 4]]
    o.events.map ConsensusEvent.leader = [(link 2).reference, (link 2).reference] ∧
      (OneLeader o.events ↔ ¬ Contested (Committee.equal 0) o.accepted) := by
  exact ⟨by decide +kernel, (run_oneLeader_iff _ chain (by decide +kernel)).1⟩

/-! ### Two leaders of one round -/

/-- A block without transactions. -/
def bareBlock (round : Nat) (author : AuthorityIndex) (digest : BlockDigest) (ancestors : List BlockRef)
    (h : round < u32Size := by decide) : VerifiedBlock :=
  ⟨{ round := round, author := author, ancestors := ancestors, round_lt := h }, digest⟩

/-- Of four authorities the last leads round 3 with two blocks, and the others list both. -/
def twoLeaders : List VerifiedBlock :=
  [bareBlock 3 3 1 [], bareBlock 3 3 2 [],
    bareBlock 4 0 0 [⟨3, 3, 1, by decide⟩, ⟨3, 3, 2, by decide⟩],
    bareBlock 4 1 0 [⟨3, 3, 1, by decide⟩, ⟨3, 3, 2, by decide⟩],
    bareBlock 4 2 0 [⟨3, 3, 1, by decide⟩, ⟨3, 3, 2, by decide⟩]]

def equivocation : Universe (Committee.equal 3) :=
  .ofBlocks _ twoLeaders {3} (by decide) (by decide) (by decide) (by decide)

/-- One equivocating authority of four, and two SoftCommits of round 3. -/
theorem two_soft_commits :
    let o := (ConsensusNode.new (fun _ => 0) (Committee.equal 3)).run (fun _ => 0) [twoLeaders]
    (∀ b ∈ twoLeaders, equivocation.Has b) ∧
      o.events = [.softCommit 3 ⟨3, 3, 1, by decide⟩ [], .softCommit 3 ⟨3, 3, 2, by decide⟩ []] ∧
      ¬ OneLeader o.events := by
  have hevents : ((ConsensusNode.new (fun _ => 0) (Committee.equal 3)).run (fun _ => 0) [twoLeaders]).events =
      [.softCommit 3 ⟨3, 3, 1, by decide⟩ [], .softCommit 3 ⟨3, 3, 2, by decide⟩ []] := by
    decide +kernel
  refine ⟨by decide +kernel, hevents, fun h => ?_⟩
  have honce := h.once
  rw [hevents] at honce
  revert honce
  decide

end DualOptimistic.Consensus
