import DualOptimistic.Consensus.BaseCommitter

/-! Early commit votes (`consensus/src/soft_commit.rs`).

Every block of a voting round votes for each leader block it lists, and the tracker fires
for a leader when the votes first reach a quorum. Fed any sequence of votes, the leaders
that have fired are exactly those whose distinct voters are a quorum (`Tallies`), and a
vote fires exactly when it completes one (`Tallies.addVote`). -/
namespace DualOptimistic.Consensus
open Data

structure SoftCommitTracker where
  /-- Per-leader accumulator. -/
  votes : OrdMap BlockRef StakeAggregator
  /-- Leaders that have already reached quorum. -/
  softCommitted : Finset BlockRef

namespace SoftCommitTracker

def new : SoftCommitTracker := ⟨∅, ∅⟩

/-- Record a vote; true the first time quorum is reached for the leader. -/
def addVote (t : SoftCommitTracker) (leaderRef : BlockRef) (voter : AuthorityIndex) (c : Committee) :
    Bool × SoftCommitTracker :=
  if leaderRef ∈ t.softCommitted then (false, t)
  else
    let added := ((t.votes.get? leaderRef).getD .new).add voter c
    if added.1 then (true, ⟨t.votes.insert leaderRef added.2, insert leaderRef t.softCommitted⟩)
    else (false, ⟨t.votes.insert leaderRef added.2, t.softCommitted⟩)

/-- Positive multiples of the wave length. -/
def isLeaderRound (round : Round) : Bool := decide (0 < round ∧ round % defaultWaveLength = 0)

/-- The leader of a leader round, by the formula of `elect_leader_index`. -/
def leaderAtRound (round : Round) (committeeSize : Nat) : AuthorityIndex := round % committeeSize

/-! ### What a sequence of votes leads to -/

/-- The distinct voters for a leader. -/
def votersOf (cast : List (BlockRef × AuthorityIndex)) (leader : BlockRef) : Finset AuthorityIndex :=
  ((cast.filter fun v => decide (v.1 = leader)).map Prod.snd).toFinset

theorem mem_votersOf {cast : List (BlockRef × AuthorityIndex)} {leader : BlockRef} {i : AuthorityIndex} :
    i ∈ votersOf cast leader ↔ (leader, i) ∈ cast := by
  rw [votersOf, List.mem_toFinset, List.mem_map]
  constructor
  · intro h
    obtain ⟨⟨l, j⟩, hmem, rfl⟩ := h
    obtain ⟨hcast, hleader⟩ := List.mem_filter.mp hmem
    obtain rfl : l = leader := of_decide_eq_true hleader
    exact hcast
  · exact fun h => ⟨(leader, i), List.mem_filter.mpr ⟨h, decide_eq_true rfl⟩, rfl⟩

theorem votersOf_append_self (cast : List (BlockRef × AuthorityIndex)) (leader : BlockRef)
    (voter : AuthorityIndex) :
    votersOf (cast ++ [(leader, voter)]) leader = insert voter (votersOf cast leader) := by
  ext i
  rw [Finset.mem_insert, mem_votersOf, mem_votersOf, List.mem_append, List.mem_singleton, Prod.mk.injEq]
  tauto

theorem votersOf_append_of_ne {cast : List (BlockRef × AuthorityIndex)} {leader other : BlockRef}
    (hne : other ≠ leader) (voter : AuthorityIndex) :
    votersOf (cast ++ [(leader, voter)]) other = votersOf cast other := by
  ext i
  rw [mem_votersOf, mem_votersOf, List.mem_append, List.mem_singleton, Prod.mk.injEq]
  exact or_iff_left fun h => hne h.1

/-- The tracker after the votes of `cast`: a leader has fired exactly if its voters are a
quorum, and the others' voters are on the books. -/
structure Tallies (c : Committee) (cast : List (BlockRef × AuthorityIndex)) (t : SoftCommitTracker) :
    Prop where
  fired : ∀ leader, leader ∈ t.softCommitted ↔ c.Quorum (votersOf cast leader)
  votes : ∀ leader, leader ∉ t.softCommitted →
    ((t.votes.get? leader).getD .new).votes = votersOf cast leader
  counts : ∀ leader, StakeAggregator.Counts c ((t.votes.get? leader).getD .new)

theorem tallies_new (c : Committee) : Tallies c [] new where
  fired leader := by
    refine ⟨fun h => absurd h (Finset.notMem_empty _), fun h => ?_⟩
    obtain ⟨i, hi⟩ := h.nonempty
    exact absurd (mem_votersOf.mp hi) List.not_mem_nil
  votes _ _ := rfl
  counts _ := StakeAggregator.counts_new c

section
variable {c : Committee} {cast : List (BlockRef × AuthorityIndex)} {t : SoftCommitTracker} {leader : BlockRef}

/-- A vote for a leader that has fired changes nothing: its quorum only grows. -/
theorem Tallies.voteAgain (h : Tallies c cast t) (hsoft : leader ∈ t.softCommitted) (voter : AuthorityIndex) :
    Tallies c (cast ++ [(leader, voter)]) t where
  fired other := by
    by_cases hne : other = leader
    · rw [hne, votersOf_append_self]
      exact iff_of_true hsoft (((h.fired leader).mp hsoft).mono (Finset.subset_insert ..))
    · rw [votersOf_append_of_ne hne]
      exact h.fired other
  votes other hother := by
    have hne : other ≠ leader := by
      rintro rfl
      exact hother hsoft
    rw [votersOf_append_of_ne hne]
    exact h.votes other hother
  counts := h.counts

/-- A vote for an open leader completes its quorum exactly if the aggregator says so. -/
theorem Tallies.add_iff (h : Tallies c cast t) (hsoft : leader ∉ t.softCommitted) (voter : AuthorityIndex) :
    (((t.votes.get? leader).getD .new).add voter c).1 = true ↔
      c.Quorum (votersOf (cast ++ [(leader, voter)]) leader) := by
  have hopen : ¬ c.Quorum (votersOf cast leader) := fun hq => hsoft ((h.fired leader).mpr hq)
  rw [StakeAggregator.add_eq_true (h.counts leader) voter, h.votes leader hsoft, votersOf_append_self]
  constructor
  · exact fun hnew => hnew.2
  · intro hq
    refine ⟨fun hmem => hopen ?_, hq⟩
    rwa [Finset.insert_eq_of_mem hmem] at hq

/-- The books after a vote for an open leader. -/
theorem Tallies.booked (h : Tallies c cast t) (hsoft : leader ∉ t.softCommitted) (voter : AuthorityIndex)
    {fired : Finset BlockRef} (hsub : t.softCommitted ⊆ fired)
    (hfired : ∀ other, other ∈ fired ↔ c.Quorum (votersOf (cast ++ [(leader, voter)]) other)) :
    Tallies c (cast ++ [(leader, voter)])
      ⟨t.votes.insert leader (((t.votes.get? leader).getD .new).add voter c).2, fired⟩ where
  fired := hfired
  votes other hother := by
    show (((t.votes.insert leader _).get? other).getD .new).votes = _
    rw [OrdMap.get?_insert]
    split_ifs with hne
    · rw [Option.getD_some, StakeAggregator.add_votes, h.votes leader hsoft, hne, votersOf_append_self]
    · rw [votersOf_append_of_ne hne]
      exact h.votes other fun hmem => hother (hsub hmem)
  counts other := by
    show StakeAggregator.Counts c (((t.votes.insert leader _).get? other).getD .new)
    rw [OrdMap.get?_insert]
    split_ifs
    · exact StakeAggregator.counts_add (h.counts leader) voter
    · exact h.counts other

/-- **One vote** fires exactly when it completes a quorum. -/
theorem Tallies.addVote (h : Tallies c cast t) (leader : BlockRef) (voter : AuthorityIndex) :
    Tallies c (cast ++ [(leader, voter)]) (t.addVote leader voter c).2 ∧
      ((t.addVote leader voter c).1 = true ↔ ¬ c.Quorum (votersOf cast leader) ∧
        c.Quorum (votersOf (cast ++ [(leader, voter)]) leader)) := by
  rw [SoftCommitTracker.addVote]
  by_cases hsoft : leader ∈ t.softCommitted
  · rw [if_pos hsoft]
    exact ⟨h.voteAgain hsoft voter,
      iff_of_false Bool.false_ne_true fun hnew => hnew.1 ((h.fired leader).mp hsoft)⟩
  · rw [if_neg hsoft]
    have hopen : ¬ c.Quorum (votersOf cast leader) := fun hq => hsoft ((h.fired leader).mpr hq)
    have hfires := h.add_iff hsoft voter
    dsimp only
    by_cases hreached : (((t.votes.get? leader).getD .new).add voter c).1 = true
    · rw [if_pos hreached]
      refine ⟨h.booked hsoft voter (Finset.subset_insert ..) fun other => ?_,
        iff_of_true rfl ⟨hopen, hfires.mp hreached⟩⟩
      rw [Finset.mem_insert]
      by_cases hne : other = leader
      · rw [hne]
        exact iff_of_true (.inl rfl) (hfires.mp hreached)
      · rw [votersOf_append_of_ne hne, ← h.fired other]
        exact or_iff_right hne
    · rw [if_neg hreached]
      refine ⟨h.booked hsoft voter (Finset.Subset.refl _) fun other => ?_,
        iff_of_false Bool.false_ne_true fun hnew => hreached (hfires.mpr hnew.2)⟩
      by_cases hne : other = leader
      · rw [hne]
        exact iff_of_false hsoft fun hq => hreached (hfires.mpr hq)
      · rw [votersOf_append_of_ne hne]
        exact h.fired other

end

end SoftCommitTracker

end DualOptimistic.Consensus
