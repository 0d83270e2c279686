import DualOptimistic.Consensus.CausalWalk
import DualOptimistic.Consensus.DecisionPass

/-! The early-commit pass over the accepted blocks.

A pass casts the votes of its blocks (`castVotes`) and sends one event for each leader it
brings to a quorum, with what the leader would commit at that moment (`Fired`). Over any
number of passes, the leaders that were sent are those whose voters are a quorum
(`checkSoftCommits_spec`). -/
namespace DualOptimistic.Consensus
open Data

/-! ### The votes of a block -/

/-- The slot a block of round `round` may vote for. -/
def votedSlot (c : Committee) (round : Round) : Slot :=
  ⟨round - 1, SoftCommitTracker.leaderAtRound (round - 1) c.size⟩

/-- The early votes of a block: one for each reference it lists into the leader slot. -/
def earlyVotes (c : Committee) (b : VerifiedBlock) : List (BlockRef × AuthorityIndex) :=
  if 2 ≤ b.round ∧ SoftCommitTracker.isLeaderRound (b.round - 1) = true then
    (b.ancestors.filter fun a => decide (a.slot = votedSlot c b.round)).map fun a => (a, b.author)
  else []

/-- The early votes of blocks, in order. -/
def castVotes (c : Committee) (blocks : List VerifiedBlock) : List (BlockRef × AuthorityIndex) :=
  blocks.flatMap (earlyVotes c)

/-- The wave of a voting round. -/
theorem voting_round_iff {round : Nat} :
    (2 ≤ round ∧ SoftCommitTracker.isLeaderRound (round - 1) = true) ↔ ∃ w, 0 < w ∧ round = 3 * w + 1 := by
  have hleader : SoftCommitTracker.isLeaderRound (round - 1) = true ↔ 0 < round - 1 ∧ (round - 1) % 3 = 0 :=
    decide_eq_true_iff
  rw [hleader]
  constructor
  · exact fun h => ⟨(round - 1) / 3, by omega, by omega⟩
  · intro h
    obtain ⟨w, hw, rfl⟩ := h
    omega

/-- Below the largest round the two formulas for the leader agree. -/
theorem votedSlot_eq (c : Committee) {w : Nat} (hw : 3 * w < u32Size) :
    votedSlot c (3 * w + 1) = leaderSlot c w := by
  show Slot.mk (3 * w) (3 * w % c.size) = Slot.mk (3 * w) ((3 * w + 0) % u32Size % c.size)
  rw [Nat.add_zero, Nat.mod_eq_of_lt hw]

/-- A vote is a block of the voting round that lists the leader. -/
theorem mem_castVotes {c : Committee} {blocks : List VerifiedBlock} {leader : BlockRef} {i : AuthorityIndex} :
    (leader, i) ∈ castVotes c blocks ↔
      ∃ w, 0 < w ∧ leader.slot = leaderSlot c w ∧
        ∃ b ∈ blocks, b.author = i ∧ b.round = 3 * w + 1 ∧ leader ∈ b.ancestors := by
  have hslot : ∀ w, leader.round = 3 * w → votedSlot c (3 * w + 1) = leaderSlot c w :=
    fun w hw => votedSlot_eq c (hw ▸ leader.round_lt)
  rw [castVotes, List.mem_flatMap]
  constructor
  · intro h
    obtain ⟨b, hb, hvote⟩ := h
    unfold earlyVotes at hvote
    split_ifs at hvote with hround
    · obtain ⟨w, hw, hbround⟩ := voting_round_iff.mp hround
      obtain ⟨a, ha, heq⟩ := List.mem_map.mp hvote
      obtain ⟨rfl, rfl⟩ := Prod.mk.inj heq
      obtain ⟨hlisted, haslot⟩ := List.mem_filter.mp ha
      have haslot := of_decide_eq_true haslot
      rw [hbround] at haslot
      have harith : 3 * w + 1 - 1 = 3 * w := Nat.add_sub_cancel ..
      have hlround : a.round = 3 * w := (congrArg Slot.round haslot).trans harith
      refine ⟨w, hw, ?_, b, hb, rfl, hbround, hlisted⟩
      rw [haslot, hslot w hlround]
    · exact absurd hvote List.not_mem_nil
  · intro h
    obtain ⟨w, hw, hlslot, b, hb, rfl, hbround, hlisted⟩ := h
    have hround := voting_round_iff.mpr ⟨w, hw, hbround⟩
    refine ⟨b, hb, ?_⟩
    rw [earlyVotes, if_pos hround, List.mem_map]
    refine ⟨leader, List.mem_filter.mpr ⟨hlisted, decide_eq_true ?_⟩, rfl⟩
    rw [hbround, hslot w (congrArg Slot.round hlslot), hlslot]

/-! ### What a pass sends -/

/-- The event for a leader, sent from a DAG. -/
def DagState.softEvent (dag : DagState) (leader : BlockRef) : ConsensusEvent :=
  .softCommit leader.round leader (dag.causalTxs leader)

/-- The events are those of the leaders that fired between two states of the tracker, each
once. -/
def Fired (dag : DagState) (t t' : SoftCommitTracker) (events : List ConsensusEvent) : Prop :=
  ∃ leaders : List BlockRef, events = leaders.map dag.softEvent ∧ leaders.Nodup ∧
    t.softCommitted ⊆ t'.softCommitted ∧
    ∀ leader, leader ∈ leaders ↔ leader ∈ t'.softCommitted ∧ leader ∉ t.softCommitted

theorem Fired.none {dag : DagState} {t t' : SoftCommitTracker} (h : t'.softCommitted = t.softCommitted) :
    Fired dag t t' [] := by
  refine ⟨[], rfl, List.nodup_nil, h.ge, fun leader => ?_⟩
  rw [h]
  exact iff_of_false List.not_mem_nil fun hboth => hboth.2 hboth.1

theorem Fired.one {dag : DagState} {t t' : SoftCommitTracker} {leader : BlockRef}
    (hnew : leader ∉ t.softCommitted) (h : t'.softCommitted = insert leader t.softCommitted) :
    Fired dag t t' [dag.softEvent leader] := by
  refine ⟨[leader], rfl, List.nodup_singleton _, ?_, fun other => ?_⟩
  · rw [h]
    exact Finset.subset_insert ..
  · rw [h, List.mem_singleton, Finset.mem_insert]
    constructor
    · rintro rfl
      exact ⟨.inl rfl, hnew⟩
    · exact fun hboth => hboth.1.resolve_right hboth.2

theorem Fired.append {dag : DagState} {t t' t'' : SoftCommitTracker} {events events' : List ConsensusEvent}
    (h : Fired dag t t' events) (h' : Fired dag t' t'' events') : Fired dag t t'' (events ++ events') := by
  obtain ⟨leaders, rfl, hnodup, hsub, hmem⟩ := h
  obtain ⟨leaders', rfl, hnodup', hsub', hmem'⟩ := h'
  refine ⟨leaders ++ leaders', by rw [List.map_append], ?_, hsub.trans hsub', fun leader => ?_⟩
  · refine List.nodup_append.mpr ⟨hnodup, hnodup', fun l hl l' hl' heq => ?_⟩
    exact ((hmem' l').mp hl').2 (heq ▸ ((hmem l).mp hl).1)
  · rw [List.mem_append, hmem, hmem']
    constructor
    · intro hin
      rcases hin with hin | hin
      · exact ⟨hsub' hin.1, hin.2⟩
      · exact ⟨hin.1, fun hold => hin.2 (hsub hold)⟩
    · intro hin
      by_cases hmid : leader ∈ t'.softCommitted
      · exact .inl ⟨hmid, hin.2⟩
      · exact .inr ⟨hin.1, hmid⟩

namespace DagState
variable {dag : DagState}

theorem fired_addVote (t : SoftCommitTracker) (leader : BlockRef) (voter : AuthorityIndex) (c : Committee) :
    Fired dag t (t.addVote leader voter c).2
      (if (t.addVote leader voter c).1 then [dag.softEvent leader] else []) := by
  unfold SoftCommitTracker.addVote
  by_cases hsoft : leader ∈ t.softCommitted
  · rw [if_pos hsoft]
    exact Fired.none rfl
  · rw [if_neg hsoft]
    by_cases hreached : (((t.votes.get? leader).getD .new).add voter c).1 = true
    · dsimp only
      rw [if_pos hreached]
      exact Fired.one hsoft rfl
    · dsimp only
      rw [if_neg hreached]
      exact Fired.none rfl

theorem countSoftVotes_spec {leaderRound : Round} {voter : AuthorityIndex} (refs : List BlockRef)
    {cast : List (BlockRef × AuthorityIndex)} {t : SoftCommitTracker} (h : t.Tallies dag.committee cast) :
    Fired dag t (dag.countSoftVotes leaderRound voter refs t).2 (dag.countSoftVotes leaderRound voter refs t).1 ∧
      (dag.countSoftVotes leaderRound voter refs t).2.Tallies dag.committee
        (cast ++ (refs.filter fun a => decide (a.slot =
          ⟨leaderRound, SoftCommitTracker.leaderAtRound leaderRound dag.committee.size⟩)).map
            fun a => (a, voter)) := by
  induction refs generalizing cast t with
  | nil => exact ⟨Fired.none rfl, by rwa [List.filter_nil, List.map_nil, List.append_nil]⟩
  | cons a rest ih =>
    rw [countSoftVotes]
    split_ifs with ha
    · have hslot : a.slot = ⟨leaderRound, SoftCommitTracker.leaderAtRound leaderRound dag.committee.size⟩ := by
        show Slot.mk a.round a.author = _
        rw [ha.1, ha.2]
      have hfired := @fired_addVote dag t a voter dag.committee
      obtain ⟨hmore, htallies⟩ := ih (h.addVote a voter).1
      refine ⟨?_, ?_⟩
      · have hevent : ConsensusEvent.softCommit leaderRound a (dag.causalTxs a) = dag.softEvent a := by
          rw [softEvent, ha.1]
        rw [hevent]
        have hboth := hfired.append hmore
        by_cases hvote : (t.addVote a voter dag.committee).1 = true
        · rw [if_pos hvote] at hboth
          dsimp only
          rwa [if_pos hvote]
        · rw [if_neg hvote] at hboth
          dsimp only
          rwa [if_neg hvote]
      · rw [List.filter_cons_of_pos (by exact decide_eq_true hslot), List.map_cons]
        rwa [List.append_assoc] at htallies
    · have hslot : ¬ a.slot = ⟨leaderRound, SoftCommitTracker.leaderAtRound leaderRound dag.committee.size⟩ := by
        intro hslot
        exact ha ⟨congrArg Slot.round hslot, congrArg Slot.authority hslot⟩
      rw [List.filter_cons_of_neg (by simpa using hslot)]
      exact ih h

theorem checkSoftCommit_spec (b : VerifiedBlock) {cast : List (BlockRef × AuthorityIndex)}
    {t : SoftCommitTracker} (h : t.Tallies dag.committee cast) :
    Fired dag t (dag.checkSoftCommit b t).2 (dag.checkSoftCommit b t).1 ∧
      (dag.checkSoftCommit b t).2.Tallies dag.committee (cast ++ earlyVotes dag.committee b) := by
  unfold checkSoftCommit earlyVotes
  by_cases hlow : b.round < 2
  · rw [if_pos hlow, if_neg fun hround => absurd hlow (Nat.not_lt_of_le hround.1), List.append_nil]
    exact ⟨Fired.none rfl, h⟩
  · rw [if_neg hlow]
    by_cases hround : SoftCommitTracker.isLeaderRound (b.round - 1) = true
    · rw [if_pos hround, if_pos ⟨Nat.le_of_not_lt hlow, hround⟩]
      exact countSoftVotes_spec b.ancestors h
    · rw [if_neg hround, if_neg fun hboth => hround hboth.2, List.append_nil]
      exact ⟨Fired.none rfl, h⟩

/-- **A pass** casts the votes of its blocks, and sends the leaders they bring to a quorum. -/
theorem checkSoftCommits_spec (blocks : List VerifiedBlock) {cast : List (BlockRef × AuthorityIndex)}
    {t : SoftCommitTracker} (h : t.Tallies dag.committee cast) :
    Fired dag t (dag.checkSoftCommits blocks t).2 (dag.checkSoftCommits blocks t).1 ∧
      (dag.checkSoftCommits blocks t).2.Tallies dag.committee (cast ++ castVotes dag.committee blocks) := by
  induction blocks generalizing cast t with
  | nil => exact ⟨Fired.none rfl, by rwa [castVotes, List.flatMap_nil, List.append_nil]⟩
  | cons b rest ih =>
    obtain ⟨hfirst, htallies⟩ := dag.checkSoftCommit_spec b h
    obtain ⟨hmore, htallies'⟩ := ih htallies
    refine ⟨hfirst.append hmore, ?_⟩
    rwa [List.append_assoc] at htallies'

end DagState

end DualOptimistic.Consensus
