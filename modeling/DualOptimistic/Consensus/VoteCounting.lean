import DualOptimistic.Consensus.Committee

/-! Stake aggregation over whole sequences of votes.

The voters of an aggregator are exactly the authorities fed to it, and its counter
is their stake (`feed_votes`, `counts_feed`), whatever the order and however often a
vote is repeated. So an answer of true means that the voters are a quorum, and two
sequences that each get one share more stake than may be faulty
(`feed_quorum_intersection`). -/
namespace DualOptimistic.Consensus
open Data

namespace StakeAggregator
variable {c : Committee}

/-- Feed votes one by one. -/
def feed (c : Committee) (a : StakeAggregator) (votes : List AuthorityIndex) : StakeAggregator :=
  votes.foldl (fun a vote => (a.add vote c).2) a

/-- Some vote of the sequence, fed to a fresh aggregator, is answered with true. -/
def Reached (c : Committee) (votes : List AuthorityIndex) : Prop :=
  ∃ before vote after, votes = before ++ vote :: after ∧ ((feed c new before).add vote c).1 = true

theorem feed_votes (a : StakeAggregator) (votes : List AuthorityIndex) :
    (feed c a votes).votes = a.votes ∪ votes.toFinset := by
  induction votes generalizing a with
  | nil => simp [feed]
  | cons vote rest ih =>
    show (feed c (a.add vote c).2 rest).votes = _
    rw [ih, add_votes, List.toFinset_cons, Finset.union_insert, Finset.insert_union]

theorem counts_feed {a : StakeAggregator} (h : Counts c a) (votes : List AuthorityIndex) :
    Counts c (feed c a votes) := by
  induction votes generalizing a with
  | nil => exact h
  | cons vote rest ih => exact ih (counts_add h vote)

theorem feed_new_votes (votes : List AuthorityIndex) : (feed c new votes).votes = votes.toFinset := by
  rw [feed_votes]
  exact Finset.empty_union _

theorem feed_new_stake (votes : List AuthorityIndex) :
    (feed c new votes).stake = c.quorums.total votes.toFinset := by
  have h := counts_feed (counts_new c) votes
  rwa [Counts, feed_new_votes] at h

/-- The answer to the next vote after any sequence. -/
theorem feed_new_add (votes : List AuthorityIndex) (vote : AuthorityIndex) :
    ((feed c new votes).add vote c).1 = true ↔
      vote ∉ votes ∧ c.Quorum (insert vote votes.toFinset) := by
  rw [add_eq_true (counts_feed (counts_new c) votes), feed_new_votes, List.mem_toFinset]
  rfl

/-- A sequence of votes gets an answer of true exactly when its voters are a quorum. -/
theorem reached_iff (votes : List AuthorityIndex) : Reached c votes ↔ c.Quorum votes.toFinset := by
  constructor
  · rintro ⟨before, vote, after, rfl, htrue⟩
    apply ((feed_new_add before vote).mp htrue).2.mono
    intro i hi
    simp only [Finset.mem_insert, List.mem_toFinset, List.mem_append, List.mem_cons] at hi ⊢
    tauto
  · intro hquorum
    -- The first prefix of the votes that is a quorum ends in the vote answered with true.
    induction votes using List.reverseRecOn with
    | nil => simpa using hquorum.nonempty
    | append_singleton before vote ih =>
      by_cases hbefore : c.Quorum before.toFinset
      · obtain ⟨first, v, last, rfl, htrue⟩ := ih hbefore
        exact ⟨first, v, last ++ [vote], by simp, htrue⟩
      · have hset : (before ++ [vote]).toFinset = insert vote before.toFinset := by
          ext i
          simp
        rw [hset] at hquorum
        have hnew : vote ∉ before := by
          intro hmem
          rw [Finset.insert_eq_of_mem (List.mem_toFinset.mpr hmem)] at hquorum
          exact hbefore hquorum
        exact ⟨before, vote, [], rfl, (feed_new_add before vote).mpr ⟨hnew, hquorum⟩⟩

end StakeAggregator

namespace Committee
variable {c : Committee}

theorem new_authorities {epoch : Epoch} {authorities : List Authority}
    (h : Committee.new epoch authorities = some c) : c.authorities = authorities := by
  unfold Committee.new at h
  simp only [Option.dite_none_right_eq_some, Option.ite_none_right_eq_some, Option.some.injEq] at h
  obtain ⟨_, _, _, _, rfl⟩ := h
  rfl

theorem total_range (c : Committee) : c.quorums.total (Finset.range c.size) = c.totalStake :=
  c.sum_stake

/-- Members hold no more than the total between them. -/
theorem total_le {votes : List AuthorityIndex} (hvotes : ∀ vote ∈ votes, vote < c.size) :
    c.quorums.total votes.toFinset ≤ c.totalStake := by
  rw [← c.total_range]
  apply QuorumSystem.total_mono
  intro i hi
  exact Finset.mem_range.mpr (hvotes i (List.mem_toFinset.mp hi))

/-- All but a set of stake at most `f` are a quorum. -/
theorem quorum_sdiff {bad : Finset AuthorityIndex} (hbad : c.quorums.total bad ≤ c.faultTolerance) :
    c.Quorum (Finset.range c.size \ bad) := by
  have hsub : Finset.range c.size ⊆ Finset.range c.size \ bad ∪ bad := by simp
  have hsum : c.quorums.total (Finset.range c.size \ bad ∪ bad) =
      c.quorums.total (Finset.range c.size \ bad) + c.quorums.total bad :=
    Finset.sum_union Finset.sdiff_disjoint
  have hle := QuorumSystem.total_mono (Q := c.quorums) hsub
  rw [c.total_range] at hle
  show c.totalStake - c.faultTolerance ≤ _
  omega

end Committee

open StakeAggregator

/-- **Quorum intersection of stake aggregation.** `T` is the total stake and
`f = (T - 1) / 3`. For votes by members in any order and with any repeats: the
counter of a fresh aggregator is the distinct voters' stake and stays within the
total, and the next vote is answered with true exactly when it is its authority's
first and the distinct voters then hold `T - f`. Two sequences that each get an
answer of true share voters of more than `f` stake, and all but at most `f` stake
reach the threshold, also when fed to an aggregator. -/
theorem feed_quorum_intersection {epoch : Epoch} {authorities : List Authority} {c : Committee}
    (h : Committee.new epoch authorities = some c) :
    let T := (authorities.map Authority.stake).sum
    let f := (T - 1) / 3
    let members := Finset.range authorities.length
    (∀ votes : List AuthorityIndex, (∀ vote ∈ votes, vote ∈ members) →
      (feed c new votes).stake = ∑ i ∈ votes.toFinset, c.stake i ∧
      (feed c new votes).stake ≤ T ∧
      ∀ vote ∈ members, (((feed c new votes).add vote c).1 = true ↔
        vote ∉ votes ∧ T - f ≤ ∑ i ∈ insert vote votes.toFinset, c.stake i)) ∧
    (∀ votes votes' : List AuthorityIndex, (∀ vote ∈ votes, vote ∈ members) →
      (∀ vote ∈ votes', vote ∈ members) → Reached c votes → Reached c votes' →
      f < ∑ i ∈ votes.toFinset ∩ votes'.toFinset, c.stake i) ∧
    (∀ bad ⊆ members, ∑ i ∈ bad, c.stake i ≤ f →
      c.reachedQuorum (∑ i ∈ members \ bad, c.stake i) = true ∧
      ∀ votes : List AuthorityIndex, (∀ i ∈ members, i ∉ bad → i ∈ votes) → Reached c votes) := by
  have hauth := Committee.new_authorities h
  subst hauth
  have hmembers : ∀ {votes : List AuthorityIndex},
      (∀ vote ∈ votes, vote ∈ Finset.range c.authorities.length) → ∀ vote ∈ votes, vote < c.size :=
    fun hvotes vote hvote => Finset.mem_range.mp (hvotes vote hvote)
  refine ⟨fun votes hvotes => ⟨feed_new_stake votes, ?_, fun vote _ => feed_new_add votes vote⟩,
    fun votes votes' hvotes hvotes' hreach hreach' => ?_, fun bad _ hbad => ⟨?_, fun votes hall => ?_⟩⟩
  · rw [feed_new_stake]
    exact Committee.total_le (hmembers hvotes)
  · have hquorum : c.quorums.IsQuorum votes.toFinset :=
      ⟨fun i hi => hvotes i (List.mem_toFinset.mp hi), (reached_iff votes).mp hreach⟩
    have hquorum' : c.quorums.IsQuorum votes'.toFinset :=
      ⟨fun i hi => hvotes' i (List.mem_toFinset.mp hi), (reached_iff votes').mp hreach'⟩
    exact hquorum.faults_lt_inter hquorum'
  · exact decide_eq_true (Committee.quorum_sdiff hbad)
  · apply (reached_iff votes).mpr
    apply (Committee.quorum_sdiff hbad).mono
    intro i hi
    rw [Finset.mem_sdiff] at hi
    exact List.mem_toFinset.mpr (hall i hi.1 hi.2)

/-- Stakes 5, 1, 1 and 3: a quorum is 7 of 10. -/
def weighted : Committee where
  epoch := 0
  authorities := [⟨5⟩, ⟨1⟩, ⟨1⟩, ⟨3⟩]
  nonempty := by simp
  size_lt := by decide
  stake_pos := by simp

theorem new_weighted : Committee.new 0 [⟨5⟩, ⟨1⟩, ⟨1⟩, ⟨3⟩] = some weighted :=
  Committee.new_eq_some weighted (by decide)

theorem weighted_quorum_intersection :
    Reached weighted [0, 0, 3, 0] ∧ Reached weighted [1, 0, 2, 3] ∧
      3 < ∑ i ∈ [0, 0, 3, 0].toFinset ∩ [1, 0, 2, 3].toFinset, weighted.stake i := by
  have hl : Reached weighted [0, 0, 3, 0] := ⟨[0, 0], 3, [0], rfl, by decide⟩
  have hr : Reached weighted [1, 0, 2, 3] := ⟨[1, 0], 2, [3], rfl, by decide⟩
  exact ⟨hl, hr, (feed_quorum_intersection new_weighted).2.1 _ _ (by decide) (by decide) hl hr⟩

end DualOptimistic.Consensus
