import DualOptimistic.Consensus.Types
import DualOptimistic.Data.Quorum

/-! The committee, stake aggregation and the threshold clock
(`consensus/src/committee.rs`, `stake_aggregator.rs`, `threshold_clock.rs`).

A committee tolerates `f = (total - 1) / 3` faulty stake and calls `total - f` a
quorum, so it is a quorum system (`Committee.quorums`). An aggregator counts each
voter once; feeding it voters one by one answers true exactly when the distinct
voters so far are a quorum (`StakeAggregator.addAll_spec`). -/
namespace DualOptimistic.Consensus
open Data

/-! ### The committee -/

structure Authority where
  stake : Nat
deriving DecidableEq

/-- The committee of one epoch. Its fields are private in the source, so a
committee exists only if `Committee.new` accepted it. -/
structure Committee where
  epoch : Epoch
  authorities : List Authority
  nonempty : authorities ≠ []
  size_lt : authorities.length < u32Size - 1
  stake_pos : (authorities.map Authority.stake).sum ≠ 0

namespace Committee

def totalStake (c : Committee) : Nat := (c.authorities.map Authority.stake).sum

/-- Tolerate integer f faults when total stake is 3f+1. -/
def faultTolerance (c : Committee) : Nat := (c.totalStake - 1) / 3

def quorumThreshold (c : Committee) : Nat := c.totalStake - c.faultTolerance

def size (c : Committee) : Nat := c.authorities.length

/-- The asserting constructor: an overflow of the `u64` sums panics like a failed
assertion. The last assertion of the source can not fail (`overlap_assertion`). -/
def new (epoch : Epoch) (authorities : List Authority) : Option Committee :=
  if hne : authorities ≠ [] then
    if hsize : authorities.length < u32Size - 1 then
      let total := (authorities.map Authority.stake).sum
      if hpos : total ≠ 0 then
        let faultTolerance := (total - 1) / 3
        let quorumThreshold := total - faultTolerance
        if total < u64Size ∧ 2 * quorumThreshold < u64Size ∧
            total < 2 * quorumThreshold - faultTolerance then
          some ⟨epoch, authorities, hne, hsize, hpos⟩
        else none
      else none
    else none
  else none

/-- The stake of one authority. An index outside the committee panics in the source;
it has no stake here, and where blocks are accepted `DagState.stranger?` tells. -/
def stake (c : Committee) (index : AuthorityIndex) : Nat :=
  (c.authorities[index]?.map Authority.stake).getD 0

def isValidIndex (c : Committee) (index : AuthorityIndex) : Bool := index < c.size

def reachedQuorum (c : Committee) (stake : Nat) : Bool := c.quorumThreshold ≤ stake

theorem totalStake_pos (c : Committee) : 0 < c.totalStake := Nat.pos_of_ne_zero c.stake_pos

/-- The quorum assertion of the constructor holds for every positive total. -/
theorem overlap_assertion (c : Committee) :
    c.totalStake + c.faultTolerance < 2 * c.quorumThreshold := by
  have := c.totalStake_pos
  simp only [quorumThreshold, faultTolerance]
  omega

/-- Within `u64`, the constructor refuses nothing but an empty or oversized list
and a zero total. -/
theorem new_eq_some (c : Committee) (h : 2 * c.totalStake < u64Size) :
    Committee.new c.epoch c.authorities = some c := by
  have ht : (c.authorities.map Authority.stake).sum = c.totalStake := rfl
  have hover := c.overlap_assertion
  have hq : c.totalStake - c.faultTolerance = c.quorumThreshold := rfl
  have hf : (c.totalStake - 1) / 3 = c.faultTolerance := rfl
  have hle : c.quorumThreshold ≤ c.totalStake := Nat.sub_le ..
  have hcond : c.totalStake < u64Size ∧ 2 * c.quorumThreshold < u64Size ∧
      c.totalStake < 2 * c.quorumThreshold - c.faultTolerance := by
    refine ⟨by omega, by omega, by omega⟩
  simp only [new, ht, hq, hf, dif_pos c.nonempty, dif_pos c.size_lt]
  rw [dif_pos c.totalStake_pos.ne', if_pos hcond]

/-- The stakes of the members sum to the total. -/
theorem sum_stake (c : Committee) : ∑ i ∈ Finset.range c.size, c.stake i = c.totalStake := by
  have h : ∀ l : List Authority,
      ∑ i ∈ Finset.range l.length, (l[i]?.map Authority.stake).getD 0 = (l.map Authority.stake).sum := by
    intro l
    induction l with
    | nil => rfl
    | cons a rest ih =>
      rw [List.length_cons, Finset.sum_range_succ']
      simp only [List.getElem?_cons_succ, List.getElem?_cons_zero, ih, List.map_cons, List.sum_cons,
        Option.map_some, Option.getD_some]
      exact Nat.add_comm ..
  exact h c.authorities

/-- The committee as a quorum system over authority indices. -/
def quorums (c : Committee) : QuorumSystem AuthorityIndex where
  members := Finset.range c.size
  weight := c.stake
  threshold := c.quorumThreshold
  faults := c.faultTolerance
  overlap := by
    rw [c.sum_stake]
    exact c.overlap_assertion

/-- `n + 1` authorities of stake one each. -/
def equal (n : Nat) (h : n + 1 < u32Size - 1 := by decide) : Committee where
  epoch := 0
  authorities := List.replicate (n + 1) ⟨1⟩
  nonempty := by simp
  size_lt := by simpa using h
  stake_pos := by simp

/-- The committee of one, which tolerates no fault. -/
def single : Committee := equal 0

theorem single_faults : single.quorums.total ∅ ≤ single.faultTolerance := by decide

@[simp] theorem mem_members {c : Committee} {i : AuthorityIndex} :
    i ∈ c.quorums.members ↔ i < c.size := Finset.mem_range

/-! ### Quorums -/

/-- The authorities hold the quorum threshold between them. -/
def Quorum (c : Committee) (A : Finset AuthorityIndex) : Prop :=
  c.quorumThreshold ≤ c.quorums.total A

instance (c : Committee) (A : Finset AuthorityIndex) : Decidable (c.Quorum A) :=
  inferInstanceAs (Decidable (_ ≤ _))

variable {c : Committee} {A B : Finset AuthorityIndex}

theorem Quorum.mono (h : c.Quorum A) (hsub : A ⊆ B) : c.Quorum B :=
  h.trans (QuorumSystem.total_mono hsub)

/-- Indices outside the committee hold no stake, so a quorum has one among its members. -/
theorem Quorum.isQuorum (h : c.Quorum A) : c.quorums.IsQuorum (A.filter (· < c.size)) := by
  refine ⟨fun i hi => mem_members.mpr (Finset.mem_filter.mp hi).2, ?_⟩
  have htotal : c.quorums.total (A.filter (· < c.size)) = c.quorums.total A := by
    refine Finset.sum_filter_of_ne fun i _ hne => ?_
    by_contra hge
    have hnone : c.authorities[i]? = none := List.getElem?_eq_none (Nat.le_of_not_lt hge)
    exact hne (by show c.stake i = 0; rw [stake, hnone]; rfl)
  rw [htotal]
  exact h

theorem Quorum.nonempty (h : c.Quorum A) : A.Nonempty :=
  h.isQuorum.nonempty.mono (Finset.filter_subset _ _)

/-- Two quorums share an authority outside any set of stake at most `f`. -/
theorem Quorum.exists_common_correct {bad : Finset AuthorityIndex} (hA : c.Quorum A)
    (hB : c.Quorum B) (hbad : c.quorums.total bad ≤ c.faultTolerance) :
    ∃ i, i ∈ A ∧ i ∈ B ∧ i ∉ bad := by
  obtain ⟨i, hiA, hiB, hi⟩ := hA.isQuorum.exists_common_correct hB.isQuorum hbad
  exact ⟨i, (Finset.mem_filter.mp hiA).1, (Finset.mem_filter.mp hiB).1, hi⟩

end Committee

/-! ### Stake aggregation -/

/-- Distinct voters and their stake, against the quorum threshold. -/
structure StakeAggregator where
  votes : Finset AuthorityIndex := ∅
  stake : Nat := 0
deriving DecidableEq

namespace StakeAggregator

def new : StakeAggregator := {}

/-- Adds a vote; true when a first vote finds the threshold reached. Duplicate
votes from the same authority are ignored. -/
def add (a : StakeAggregator) (vote : AuthorityIndex) (c : Committee) : Bool × StakeAggregator :=
  if vote ∈ a.votes then (false, a)
  else
    let stake := a.stake + c.stake vote
    (c.reachedQuorum stake, ⟨insert vote a.votes, stake⟩)

def clear (_ : StakeAggregator) : StakeAggregator := {}

/-- The counter is the voters' total. -/
def Counts (c : Committee) (a : StakeAggregator) : Prop := a.stake = c.quorums.total a.votes

theorem counts_new (c : Committee) : Counts c new := rfl

theorem add_votes (a : StakeAggregator) (vote : AuthorityIndex) (c : Committee) :
    (a.add vote c).2.votes = insert vote a.votes := by
  unfold add
  split_ifs with h
  · rw [Finset.insert_eq_of_mem h]
  · rfl

theorem counts_add {c : Committee} {a : StakeAggregator} (h : Counts c a) (vote : AuthorityIndex) :
    Counts c (a.add vote c).2 := by
  unfold add
  split_ifs with hv
  · exact h
  · show a.stake + c.stake vote = ∑ i ∈ insert vote a.votes, c.stake i
    rw [Finset.sum_insert hv, Nat.add_comm]
    exact congrArg (c.stake vote + ·) h

theorem add_eq_true {c : Committee} {a : StakeAggregator} (h : Counts c a) (vote : AuthorityIndex) :
    (a.add vote c).1 = true ↔
      vote ∉ a.votes ∧ c.quorumThreshold ≤ c.quorums.total (insert vote a.votes) := by
  have hc := counts_add h vote
  have hv := add_votes a vote c
  rw [Counts, hv] at hc
  unfold add at hc ⊢
  split_ifs with hmem
  · simp [hmem]
  · rw [if_neg hmem] at hc
    rw [← hc]
    simp [hmem, Committee.reachedQuorum]

/-- Feed voters until the threshold is reached. -/
def addAll (c : Committee) : StakeAggregator → List AuthorityIndex → Bool
  | _, [] => false
  | a, vote :: rest => (a.add vote c).1 || addAll c (a.add vote c).2 rest

/-- Short of the threshold before, the voters reach it exactly when all of them
together hold it. -/
theorem addAll_of_counts {c : Committee} {a : StakeAggregator} (h : Counts c a)
    (hlow : c.quorums.total a.votes < c.quorumThreshold) (voters : List AuthorityIndex) :
    addAll c a voters = true ↔
      c.quorumThreshold ≤ c.quorums.total (a.votes ∪ voters.toFinset) := by
  induction voters generalizing a with
  | nil => simpa [addAll] using hlow
  | cons vote rest ih =>
    have hset : a.votes ∪ (vote :: rest).toFinset = insert vote a.votes ∪ rest.toFinset := by
      rw [List.toFinset_cons, Finset.union_insert, Finset.insert_union]
    simp only [addAll, Bool.or_eq_true]
    rw [hset]
    by_cases htrue : (a.add vote c).1 = true
    · have hreach := ((add_eq_true h vote).mp htrue).2
      simp only [htrue, true_or, true_iff]
      exact hreach.trans (QuorumSystem.total_mono Finset.subset_union_left)
    · have hstill : c.quorums.total (a.add vote c).2.votes < c.quorumThreshold := by
        rw [add_votes]
        by_cases hmem : vote ∈ a.votes
        · rw [Finset.insert_eq_of_mem hmem]
          exact hlow
        · by_contra hge
          exact htrue ((add_eq_true h vote).mpr ⟨hmem, Nat.le_of_not_lt hge⟩)
      simp only [htrue, false_or, Bool.false_eq_true]
      rw [ih (counts_add h vote) hstill, add_votes]

/-- A fresh aggregator fed voters answers true exactly when the distinct voters
hold the quorum threshold. -/
theorem addAll_spec (c : Committee) (voters : List AuthorityIndex) :
    addAll c new voters = true ↔ c.Quorum voters.toFinset := by
  have hpos : 0 < c.quorumThreshold := c.quorums.threshold_pos
  have := addAll_of_counts (counts_new c) hpos voters
  rwa [show (new.votes ∪ voters.toFinset) = voters.toFinset from Finset.empty_union _] at this

end StakeAggregator

/-! ### The threshold clock -/

/-- Advances when a quorum of blocks at the current round is collected. -/
structure ThresholdClock where
  aggregator : StakeAggregator := {}
  round : Round
deriving DecidableEq

namespace ThresholdClock

def new (round : Round) : ThresholdClock := { round }

/-- Adds an accepted block; true if the round advanced. The increment is a `u32`
addition and wraps at the last round. -/
def addBlock (clock : ThresholdClock) (c : Committee) (block : BlockRef) : Bool × ThresholdClock :=
  if block.round < clock.round then (false, clock)
  else if block.round = clock.round then
    let (reached, aggregator) := clock.aggregator.add block.author c
    if reached then (true, ⟨aggregator.clear, (block.round + 1) % u32Size⟩)
    else (false, ⟨aggregator, clock.round⟩)
  else
    let (reached, aggregator) := clock.aggregator.clear.add block.author c
    if reached then (true, ⟨aggregator, (block.round + 1) % u32Size⟩)
    else (true, ⟨aggregator, block.round⟩)

/-- Whether adding the block asks for the stake of its author: it is of a later round, or of the
current one and the first of its author. -/
def looksUp (clock : ThresholdClock) (block : BlockRef) : Bool :=
  decide (clock.round < block.round) ||
    (decide (block.round = clock.round) && decide (block.author ∉ clock.aggregator.votes))

end ThresholdClock

end DualOptimistic.Consensus
