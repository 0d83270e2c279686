import DualOptimistic.Consensus.VoteCounting

/-! The threshold clock over whole sequences of blocks (`consensus/src/threshold_clock.rs`).

`expected` says what the clock is for: it stands one past the highest round seen if
that round has a quorum of authors, and at that round if not. The clock keeps to it
except in one place. When a block of a later round is a quorum by itself the source
moves on without clearing the aggregator, so the next round starts with that author's
stake in it; the clock is wrong exactly when a block of that next round follows
(`closedForm_iff`). -/
namespace DualOptimistic.Consensus

namespace ThresholdClock

/-- The clock after blocks added one by one. -/
def run (c : Committee) (clock : ThresholdClock) (blocks : List BlockRef) : ThresholdClock :=
  blocks.foldl (fun clock block => (clock.addBlock c block).2) clock

theorem run_append_singleton (c : Committee) (clock : ThresholdClock) (blocks : List BlockRef)
    (block : BlockRef) :
    run c clock (blocks ++ [block]) = ((run c clock blocks).addBlock c block).2 := by
  simp [run]

/-! ### The closed form -/

/-- The distinct authors of the blocks of one round. -/
def authorsAt (blocks : List BlockRef) (round : Round) : Finset AuthorityIndex :=
  ((blocks.filter (·.round = round)).map BlockRef.author).toFinset

/-- The largest round seen. -/
def topRound (blocks : List BlockRef) : Round := (blocks.map BlockRef.round).foldr max 0

/-- Where the clock should stand: at the start round until a block reaches it, then
at the largest round seen, or one past it once its authors are a quorum. -/
def expected (c : Committee) (start : Round) (blocks : List BlockRef) : Round :=
  if ∃ block ∈ blocks, start ≤ block.round then
    if c.Quorum (authorsAt blocks (topRound blocks)) then topRound blocks + 1 else topRound blocks
  else start

section
variable {c : Committee} {start round : Round} {blocks blocks' : List BlockRef} {block : BlockRef}

theorem mem_authorsAt {i : AuthorityIndex} :
    i ∈ authorsAt blocks round ↔ ∃ block ∈ blocks, block.round = round ∧ block.author = i := by
  simp [authorsAt, and_assoc]

theorem authorsAt_append (blocks : List BlockRef) (block : BlockRef) :
    authorsAt (blocks ++ [block]) round =
      if block.round = round then insert block.author (authorsAt blocks round)
      else authorsAt blocks round := by
  ext i
  split_ifs with h
  · simp only [mem_authorsAt, Finset.mem_insert, List.mem_append, List.mem_singleton]
    constructor
    · rintro ⟨b, hb | rfl, hr, rfl⟩
      · exact Or.inr ⟨b, hb, hr, rfl⟩
      · exact Or.inl rfl
    · rintro (rfl | ⟨b, hb, hr, rfl⟩)
      · exact ⟨block, Or.inr rfl, h, rfl⟩
      · exact ⟨b, Or.inl hb, hr, rfl⟩
  · simp only [mem_authorsAt, List.mem_append, List.mem_singleton]
    constructor
    · rintro ⟨b, hb | rfl, hr, rfl⟩
      · exact ⟨b, hb, hr, rfl⟩
      · exact absurd hr h
    · rintro ⟨b, hb, hr, rfl⟩
      exact ⟨b, Or.inl hb, hr, rfl⟩

theorem le_topRound (h : block ∈ blocks) : block.round ≤ topRound blocks := by
  induction blocks with
  | nil => cases h
  | cons b rest ih =>
    show block.round ≤ max b.round (topRound rest)
    cases h with
    | head => exact Nat.le_max_left ..
    | tail _ h => exact (ih h).trans (Nat.le_max_right ..)

theorem topRound_le (h : ∀ block ∈ blocks, block.round ≤ round) : topRound blocks ≤ round := by
  induction blocks with
  | nil => exact Nat.zero_le _
  | cons b rest ih =>
    show max b.round (topRound rest) ≤ round
    exact Nat.max_le.mpr ⟨h b (by simp), ih fun block hb => h block (by simp [hb])⟩

theorem topRound_eq (hmem : block ∈ blocks) (h : ∀ b ∈ blocks, b.round ≤ block.round) :
    topRound blocks = block.round :=
  Nat.le_antisymm (topRound_le h) (le_topRound hmem)

theorem topRound_congr (h : ∀ b, b ∈ blocks ↔ b ∈ blocks') : topRound blocks = topRound blocks' :=
  Nat.le_antisymm (topRound_le fun b hb => le_topRound ((h b).mp hb))
    (topRound_le fun b hb => le_topRound ((h b).mpr hb))

/-- The closed form reads nothing but which blocks were added. -/
theorem expected_congr (h : ∀ b, b ∈ blocks ↔ b ∈ blocks') :
    expected c start blocks = expected c start blocks' := by
  have hauthors : ∀ round, authorsAt blocks round = authorsAt blocks' round := by
    intro round
    ext i
    simp only [mem_authorsAt, h]
  unfold expected
  simp only [topRound_congr h, hauthors, h]

theorem start_le_expected : start ≤ expected c start blocks := by
  unfold expected
  split_ifs with hex hq
  · obtain ⟨b, hb, hle⟩ := hex
    exact (hle.trans (le_topRound hb)).trans (Nat.le_succ _)
  · obtain ⟨b, hb, hle⟩ := hex
    exact hle.trans (le_topRound hb)
  · exact Nat.le_refl _

theorem round_le_expected (h : block ∈ blocks) : block.round ≤ expected c start blocks := by
  unfold expected
  split_ifs with hex hq
  · exact (le_topRound h).trans (Nat.le_succ _)
  · exact le_topRound h
  · by_contra hlt
    exact hex ⟨block, h, Nat.le_of_not_le hlt⟩

theorem authorsAt_eq_empty (h : expected c start blocks < round) : authorsAt blocks round = ∅ := by
  rw [Finset.eq_empty_iff_forall_notMem]
  intro i hi
  obtain ⟨b, hb, rfl, -⟩ := mem_authorsAt.mp hi
  exact Nat.not_lt.mpr (round_le_expected hb) h

/-- The round the clock stands at has no quorum: it would have moved on. -/
theorem not_quorum_expected : ¬ c.Quorum (authorsAt blocks (expected c start blocks)) := by
  intro hquorum
  obtain ⟨i, hi⟩ := hquorum.nonempty
  obtain ⟨b, hb, hround, -⟩ := mem_authorsAt.mp hi
  have hle : expected c start blocks ≤ topRound blocks := hround ▸ le_topRound hb
  have hex : ∃ block ∈ blocks, start ≤ block.round := ⟨b, hb, hround ▸ start_le_expected⟩
  by_cases hq : c.Quorum (authorsAt blocks (topRound blocks))
  · have : expected c start blocks = topRound blocks + 1 := by rw [expected, if_pos hex, if_pos hq]
    exact Nat.not_succ_le_self _ (this ▸ hle)
  · have : expected c start blocks = topRound blocks := by rw [expected, if_pos hex, if_neg hq]
    exact hq (this ▸ hquorum)

/-- A block below the clock changes nothing. -/
theorem expected_append_of_lt (h : block.round < expected c start blocks) :
    expected c start (blocks ++ [block]) = expected c start blocks := by
  by_cases hex : ∃ b ∈ blocks, start ≤ b.round
  · obtain ⟨b, hb, hle⟩ := hex
    have hex : ∃ b ∈ blocks, start ≤ b.round := ⟨b, hb, hle⟩
    have hex' : ∃ b ∈ blocks ++ [block], start ≤ b.round := ⟨b, by simp [hb], hle⟩
    have htop : block.round ≤ topRound blocks := by
      rw [expected, if_pos hex] at h
      split_ifs at h
      · exact Nat.le_of_lt_succ h
      · exact Nat.le_of_lt h
    have htop' : topRound (blocks ++ [block]) = topRound blocks := by
      apply Nat.le_antisymm
      · apply topRound_le
        intro x hx
        simp only [List.mem_append, List.mem_singleton] at hx
        cases hx with
        | inl hx => exact le_topRound hx
        | inr hx => exact hx ▸ htop
      · exact topRound_le fun x hx => le_topRound (by simp [hx])
    -- A block of the top round itself is below the clock only if that round has its quorum.
    have hquorum : c.Quorum (authorsAt (blocks ++ [block]) (topRound blocks)) ↔
        c.Quorum (authorsAt blocks (topRound blocks)) := by
      rw [authorsAt_append]
      split_ifs with hr
      · have hq : c.Quorum (authorsAt blocks (topRound blocks)) := by
          by_contra hq
          rw [expected, if_pos hex, if_neg hq] at h
          exact h.ne hr
        simp only [hq, iff_true]
        exact hq.mono (Finset.subset_insert ..)
      · rfl
    simp only [expected, if_pos hex, if_pos hex', htop', hquorum]
  · have hstart : expected c start blocks = start := by rw [expected, if_neg hex]
    rw [hstart] at h
    have hex' : ¬ ∃ b ∈ blocks ++ [block], start ≤ b.round := by
      rintro ⟨b, hb, hle⟩
      simp only [List.mem_append, List.mem_singleton] at hb
      cases hb with
      | inl hb => exact hex ⟨b, hb, hle⟩
      | inr hb => exact Nat.not_lt.mpr hle (hb ▸ h)
    rw [hstart, expected, if_neg hex']

/-- A block at or above the clock is of the largest round seen. -/
theorem expected_append_of_le (h : expected c start blocks ≤ block.round) :
    expected c start (blocks ++ [block]) =
      if c.Quorum (insert block.author (authorsAt blocks block.round)) then block.round + 1
      else block.round := by
  have hex : ∃ b ∈ blocks ++ [block], start ≤ b.round :=
    ⟨block, by simp, start_le_expected.trans h⟩
  have htop : topRound (blocks ++ [block]) = block.round := by
    apply topRound_eq (by simp)
    intro b hb
    simp only [List.mem_append, List.mem_singleton] at hb
    cases hb with
    | inl hb => exact (round_le_expected hb).trans h
    | inr hb => rw [hb]
  rw [expected, if_pos hex, htop, authorsAt_append, if_pos rfl]

end

/-! ### A jump by a lone quorum -/

/-- The block makes the clock jump: its round is past the start round and past every
round seen, and the round before it has no quorum yet. -/
def Jumps (c : Committee) (start : Round) (before : List BlockRef) (block : BlockRef) : Prop :=
  start < block.round ∧ (∀ b ∈ before, b.round < block.round) ∧
    ¬ c.Quorum (authorsAt before (block.round - 1))

/-- The last jump was made by a block whose author is a quorum alone, and nothing of a
later round has been added since. -/
def LoneJump (c : Committee) (start : Round) (blocks : List BlockRef) (block : BlockRef) : Prop :=
  ∃ before between, blocks = before ++ block :: between ∧ Jumps c start before block ∧
    c.Quorum {block.author} ∧ ∀ b ∈ between, b.round ≤ block.round

/-- Some block follows such a jump in the very next round. -/
def FollowedUp (c : Committee) (start : Round) (blocks : List BlockRef) : Prop :=
  ∃ before next after jump, blocks = before ++ next :: after ∧ LoneJump c start before jump ∧
    next.round = jump.round + 1

section
variable {c : Committee} {start : Round} {blocks : List BlockRef} {block jump : BlockRef}

/-- A block jumps exactly when it is above the clock. -/
theorem jumps_iff : Jumps c start blocks block ↔ expected c start blocks < block.round := by
  constructor
  · rintro ⟨hstart, hbelow, hquorum⟩
    have hpred : block.round - 1 < block.round :=
      Nat.sub_one_lt (Nat.ne_of_gt (Nat.zero_lt_of_lt hstart))
    have htop : topRound blocks ≤ block.round - 1 :=
      topRound_le fun b hb => Nat.le_sub_one_of_lt (hbelow b hb)
    unfold expected
    split_ifs with hex hq
    · have hne : topRound blocks ≠ block.round - 1 := fun h => hquorum (h ▸ hq)
      exact Nat.lt_of_le_of_lt (Nat.lt_of_le_of_ne htop hne) hpred
    · exact Nat.lt_of_le_of_lt htop hpred
    · exact hstart
  · intro h
    refine ⟨Nat.lt_of_le_of_lt start_le_expected h,
      fun b hb => Nat.lt_of_le_of_lt (round_le_expected hb) h, fun hq => ?_⟩
    have hle : expected c start blocks ≤ block.round - 1 := Nat.le_sub_one_of_lt h
    have hne : expected c start blocks ≠ block.round - 1 := by
      intro he
      rw [← he] at hq
      exact not_quorum_expected hq
    rw [authorsAt_eq_empty (Nat.lt_of_le_of_ne hle hne)] at hq
    exact Finset.not_nonempty_empty hq.nonempty

/-- What the last block of a sequence has to do with its lone jump. -/
theorem loneJump_append :
    LoneJump c start (blocks ++ [block]) jump ↔
      (jump = block ∧ Jumps c start blocks block ∧ c.Quorum {block.author}) ∨
      (LoneJump c start blocks jump ∧ block.round ≤ jump.round) := by
  constructor
  · rintro ⟨before, between, hsplit, hjump, hquorum, hbetween⟩
    induction between using List.reverseRecOn with
    | nil =>
      obtain ⟨rfl, hlast⟩ := List.append_inj' hsplit rfl
      obtain rfl : block = jump := by simpa using hlast
      exact Or.inl ⟨rfl, hjump, hquorum⟩
    | append_singleton between last =>
      rw [← List.cons_append, ← List.append_assoc] at hsplit
      obtain ⟨rfl, hlast⟩ := List.append_inj' hsplit rfl
      obtain rfl : block = last := by simpa using hlast
      exact Or.inr ⟨⟨before, between, rfl, hjump, hquorum, fun b hb => hbetween b (by simp [hb])⟩,
        hbetween block (by simp)⟩
  · rintro (⟨rfl, hjump, hquorum⟩ | ⟨⟨before, between, rfl, hjump, hquorum, hbetween⟩, hle⟩)
    · exact ⟨blocks, [], rfl, hjump, hquorum, by simp⟩
    · refine ⟨before, between ++ [block], by simp, hjump, hquorum, fun b hb => ?_⟩
      simp only [List.mem_append, List.mem_singleton] at hb
      cases hb with
      | inl hb => exact hbetween b hb
      | inr hb => exact hb ▸ hle

/-- After a lone jump the clock stands one past it. -/
theorem LoneJump.expected_eq (h : LoneJump c start blocks jump) :
    expected c start blocks = jump.round + 1 := by
  induction blocks using List.reverseRecOn with
  | nil =>
    obtain ⟨before, between, hsplit, -⟩ := h
    simp at hsplit
  | append_singleton blocks block ih =>
    cases loneJump_append.mp h with
    | inl hnow =>
      obtain ⟨rfl, hjump, hquorum⟩ := hnow
      have hlt := jumps_iff.mp hjump
      rw [expected_append_of_le (Nat.le_of_lt hlt), authorsAt_eq_empty hlt]
      exact if_pos hquorum
    | inr hearlier =>
      have heq := ih hearlier.1
      rw [expected_append_of_lt (by rw [heq]; exact Nat.lt_succ_of_le hearlier.2), heq]

/-- Two authorities can not each be a quorum. -/
theorem lone_quorum_unique {i j : AuthorityIndex} (hi : c.Quorum {i}) (hj : c.Quorum {j}) :
    i = j := by
  have hnone : c.quorums.total ∅ ≤ c.faultTolerance := Nat.zero_le _
  obtain ⟨k, hki, hkj, -⟩ := hi.exists_common_correct hj hnone
  rw [← Finset.mem_singleton.mp hki, Finset.mem_singleton.mp hkj]

theorem followedUp_append :
    FollowedUp c start (blocks ++ [block]) ↔
      FollowedUp c start blocks ∨
        ∃ jump, LoneJump c start blocks jump ∧ block.round = jump.round + 1 := by
  constructor
  · rintro ⟨before, next, after, jump, hsplit, hjump, hround⟩
    induction after using List.reverseRecOn with
    | nil =>
      obtain ⟨rfl, hlast⟩ := List.append_inj' hsplit rfl
      obtain rfl : block = next := by simpa using hlast
      exact Or.inr ⟨jump, hjump, hround⟩
    | append_singleton after last =>
      rw [← List.cons_append, ← List.append_assoc] at hsplit
      obtain ⟨rfl, -⟩ := List.append_inj' hsplit rfl
      exact Or.inl ⟨before, next, after, jump, rfl, hjump, hround⟩
  · rintro (⟨before, next, after, jump, rfl, hjump, hround⟩ | ⟨jump, hjump, hround⟩)
    · exact ⟨before, next, after ++ [block], jump, by simp, hjump, hround⟩
    · exact ⟨blocks, block, [], jump, rfl, hjump, hround⟩

end

/-! ### The clock against the closed form -/

/-- The clock after these blocks: where it should be, with the authors of its round
counted, or, after a lone jump, still with the author of that jump. -/
structure Follows (c : Committee) (start : Round) (blocks : List BlockRef)
    (clock : ThresholdClock) : Prop where
  round : clock.round = expected c start blocks
  counts : StakeAggregator.Counts c clock.aggregator
  stale : ∀ jump, LoneJump c start blocks jump → clock.aggregator.votes = {jump.author}
  fresh : (¬ ∃ jump, LoneJump c start blocks jump) →
    clock.aggregator.votes = authorsAt blocks clock.round

section
variable {c : Committee} {start : Round} {blocks : List BlockRef} {block : BlockRef}
  {clock : ThresholdClock}

theorem addBlock_of_lt (h : block.round < clock.round) : clock.addBlock c block = (false, clock) :=
  if_pos h

theorem addBlock_of_eq (h : block.round = clock.round) :
    clock.addBlock c block =
      if (clock.aggregator.add block.author c).1 = true then
        (true, ⟨{}, (block.round + 1) % u32Size⟩)
      else (false, ⟨(clock.aggregator.add block.author c).2, clock.round⟩) := by
  rw [addBlock, if_neg (Nat.not_lt.mpr h.ge), if_pos h]
  rfl

/-- The first vote is a quorum if its author alone is one. -/
theorem new_add_eq_true (i : AuthorityIndex) : (StakeAggregator.new.add i c).1 = true ↔ c.Quorum {i} := by
  rw [StakeAggregator.add_eq_true (StakeAggregator.counts_new c)]
  simp [StakeAggregator.new, Committee.Quorum]

theorem addBlock_of_gt (h : clock.round < block.round) :
    clock.addBlock c block =
      (true, ⟨(StakeAggregator.new.add block.author c).2,
        if c.Quorum {block.author} then (block.round + 1) % u32Size else block.round⟩) := by
  have hadd := @new_add_eq_true c block.author
  rw [addBlock, if_neg (Nat.not_lt.mpr h.le), if_neg h.ne']
  show (if (StakeAggregator.new.add block.author c).1 = true then _ else _) = _
  simp only [hadd]
  split_ifs with hq
  · rfl
  · rfl

theorem succ_mod (hround : block.round < u32Size - 1) :
    (block.round + 1) % u32Size = block.round + 1 :=
  Nat.mod_eq_of_lt (Nat.add_lt_of_lt_sub hround)

/-- The answer says whether the round changed. -/
theorem addBlock_answer (clock : ThresholdClock) (hround : block.round < u32Size - 1) :
    (clock.addBlock c block).1 = true ↔ (clock.addBlock c block).2.round ≠ clock.round := by
  have hmod := succ_mod hround
  rcases Nat.lt_trichotomy block.round clock.round with h | h | h
  · simp [addBlock_of_lt h]
  · rw [addBlock_of_eq h]
    split_ifs with hadd
    · simp [hmod, ← h]
    · simp
  · rw [addBlock_of_gt h]
    simp only [true_iff, hmod]
    split_ifs
    · exact (Nat.lt_succ_of_lt h).ne'
    · exact h.ne'

theorem follows_new (c : Committee) (start : Round) : Follows c start [] (new start) := by
  have hnone : ∀ jump, ¬ LoneJump c start [] jump := by
    rintro jump ⟨before, between, hsplit, -⟩
    simp at hsplit
  exact ⟨by simp [expected, new], StakeAggregator.counts_new c, fun jump h => absurd h (hnone jump),
    fun _ => by simp [new, authorsAt]⟩

/-- Older than what we are building: nothing changes, a stale author included. -/
theorem Follows.older (hc : Follows c start blocks clock) (h : block.round < clock.round) :
    Follows c start (blocks ++ [block]) clock := by
  have hlt : block.round < expected c start blocks := hc.round ▸ h
  refine ⟨by rw [expected_append_of_lt hlt, hc.round], hc.counts, fun jump hjump => ?_, fun hnone => ?_⟩
  · cases loneJump_append.mp hjump with
    | inl hnow => exact absurd (jumps_iff.mp hnow.2.1) (Nat.lt_asymm hlt)
    | inr hearlier => exact hc.stale jump hearlier.1
  · have hnone' : ¬ ∃ jump, LoneJump c start blocks jump := by
      rintro ⟨jump, hjump⟩
      rw [hjump.expected_eq] at hlt
      exact hnone ⟨jump, loneJump_append.mpr (Or.inr ⟨hjump, Nat.le_of_lt_succ hlt⟩)⟩
    rw [authorsAt_append, if_neg h.ne]
    exact hc.fresh hnone'

/-- A block of the clock's round, with no lone jump behind it. -/
theorem Follows.current (hc : Follows c start blocks clock) (hround : block.round < u32Size - 1)
    (h : block.round = clock.round) (hnone : ¬ ∃ jump, LoneJump c start blocks jump) :
    Follows c start (blocks ++ [block]) (clock.addBlock c block).2 := by
  have heq : block.round = expected c start blocks := h.trans hc.round
  have hvotes : clock.aggregator.votes = authorsAt blocks block.round := h ▸ hc.fresh hnone
  have hnone' : ∀ jump, ¬ LoneJump c start (blocks ++ [block]) jump := by
    intro jump hjump
    cases loneJump_append.mp hjump with
    | inl hnow => exact (jumps_iff.mp hnow.2.1).ne heq.symm
    | inr hearlier => exact hnone ⟨jump, hearlier.1⟩
  -- The round had no quorum before, so a quorum now is a first vote.
  have hadd : (clock.aggregator.add block.author c).1 = true ↔
      c.Quorum (insert block.author (authorsAt blocks block.round)) := by
    rw [StakeAggregator.add_eq_true hc.counts, hvotes]
    refine ⟨fun hq => hq.2, fun hq => ⟨fun hmem => ?_, hq⟩⟩
    rw [Finset.insert_eq_of_mem hmem, heq] at hq
    exact not_quorum_expected hq
  have hexp := expected_append_of_le (Nat.le_of_eq heq.symm)
  rw [addBlock_of_eq h, succ_mod hround]
  split_ifs with hq
  · rw [if_pos (hadd.mp hq)] at hexp
    refine ⟨hexp.symm, StakeAggregator.counts_new c, fun jump hjump => absurd hjump (hnone' jump),
      fun _ => ?_⟩
    have hlt : expected c start blocks < block.round + 1 := by
      rw [← heq]
      exact Nat.lt_succ_self _
    show ∅ = authorsAt (blocks ++ [block]) (block.round + 1)
    rw [authorsAt_append, if_neg (Nat.ne_of_lt (Nat.lt_succ_self _)), authorsAt_eq_empty hlt]
  · rw [if_neg (fun hquorum => hq (hadd.mpr hquorum))] at hexp
    refine ⟨by rw [hexp, h], StakeAggregator.counts_add hc.counts _,
      fun jump hjump => absurd hjump (hnone' jump), fun _ => ?_⟩
    show (clock.aggregator.add block.author c).2.votes = authorsAt (blocks ++ [block]) clock.round
    rw [StakeAggregator.add_votes, authorsAt_append, if_pos h, hvotes, h]

/-- A block of a future round: the count starts over with its author. -/
theorem Follows.later (hc : Follows c start blocks clock) (hround : block.round < u32Size - 1)
    (h : clock.round < block.round) :
    Follows c start (blocks ++ [block]) (clock.addBlock c block).2 := by
  have hlt : expected c start blocks < block.round := hc.round ▸ h
  have hexp := expected_append_of_le (Nat.le_of_lt hlt)
  rw [authorsAt_eq_empty hlt, show insert block.author ∅ = {block.author} from rfl] at hexp
  have hvotes : (StakeAggregator.new.add block.author c).2.votes = {block.author} := by
    rw [StakeAggregator.add_votes]
    rfl
  rw [addBlock_of_gt h, succ_mod hround]
  refine ⟨hexp.symm, StakeAggregator.counts_add (StakeAggregator.counts_new c) _,
    fun jump hjump => ?_, fun hnone => ?_⟩
  · cases loneJump_append.mp hjump with
    | inl hnow => rw [hnow.1, hvotes]
    | inr hearlier =>
      rw [hearlier.1.expected_eq] at hlt
      exact absurd (Nat.lt_of_succ_lt hlt) (Nat.not_lt.mpr hearlier.2)
  · have hq : ¬ c.Quorum {block.author} := fun hq =>
      hnone ⟨block, loneJump_append.mpr (Or.inl ⟨rfl, jumps_iff.mpr hlt, hq⟩)⟩
    show _ = authorsAt (blocks ++ [block]) (if c.Quorum {block.author} then _ else block.round)
    rw [if_neg hq, hvotes, authorsAt_append, if_pos rfl, authorsAt_eq_empty hlt]
    rfl

/-- **One block**, unless it follows up a lone jump, keeps the clock on its closed form. -/
theorem Follows.addBlock (hc : Follows c start blocks clock) (hround : block.round < u32Size - 1)
    (hnext : ¬ ∃ jump, LoneJump c start blocks jump ∧ block.round = jump.round + 1) :
    Follows c start (blocks ++ [block]) (clock.addBlock c block).2 := by
  rcases Nat.lt_trichotomy block.round clock.round with h | h | h
  · rw [addBlock_of_lt h]
    exact hc.older h
  · apply hc.current hround h
    rintro ⟨jump, hjump⟩
    exact hnext ⟨jump, hjump, (h.trans hc.round).trans hjump.expected_eq⟩
  · exact hc.later hround h

theorem LoneJump.round_le {jump : BlockRef} (h : LoneJump c start blocks jump) :
    ∀ b ∈ blocks, b.round ≤ jump.round := by
  obtain ⟨before, between, rfl, hjumps, -, hbetween⟩ := h
  intro b hb
  simp only [List.mem_append, List.mem_cons] at hb
  rcases hb with hb | rfl | hb
  · exact Nat.le_of_lt (hjumps.2.1 b hb)
  · exact Nat.le_refl _
  · exact hbetween b hb

/-- A block that follows up a lone jump takes the clock off its closed form: a block of
the same author is not counted, and any other completes a quorum with the stale author. -/
theorem Follows.diverges (hc : Follows c start blocks clock) (hround : block.round < u32Size - 1)
    {jump : BlockRef} (hjump : LoneJump c start blocks jump) (hnext : block.round = jump.round + 1) :
    (clock.addBlock c block).2.round ≠ expected c start (blocks ++ [block]) := by
  have heq : block.round = expected c start blocks := hnext.trans hjump.expected_eq.symm
  have hquorum : c.Quorum {jump.author} := by
    obtain ⟨-, -, -, -, hquorum, -⟩ := hjump
    exact hquorum
  have hnone : authorsAt blocks block.round = ∅ := by
    rw [Finset.eq_empty_iff_forall_notMem]
    intro i hi
    obtain ⟨b, hb, hbr, -⟩ := mem_authorsAt.mp hi
    have hle := hjump.round_le b hb
    rw [hbr, hnext] at hle
    exact Nat.not_succ_le_self _ hle
  have hexp := expected_append_of_le (Nat.le_of_eq heq.symm)
  rw [hnone, show insert block.author ∅ = {block.author} from rfl] at hexp
  have hvotes := hc.stale jump hjump
  rw [addBlock_of_eq (heq.trans hc.round.symm), hexp]
  by_cases hauthor : block.author = jump.author
  · have hadd : ¬ (clock.aggregator.add block.author c).1 = true := by
      rw [StakeAggregator.add_eq_true hc.counts, hvotes, hauthor]
      simp
    rw [if_neg hadd, hauthor, if_pos hquorum]
    show clock.round ≠ _
    rw [hc.round, ← heq]
    exact Nat.ne_of_lt (Nat.lt_succ_self _)
  · have hadd : (clock.aggregator.add block.author c).1 = true := by
      rw [StakeAggregator.add_eq_true hc.counts, hvotes]
      exact ⟨by simpa using hauthor, hquorum.mono (by simp)⟩
    rw [if_pos hadd, if_neg fun hq => hauthor (lone_quorum_unique hq hquorum)]
    show (block.round + 1) % u32Size ≠ _
    rw [succ_mod hround]
    exact Nat.ne_of_gt (Nat.lt_succ_self _)

end

/-- The clock started at a round and fed blocks: after each of them it stands where the
closed form says, and each answer says whether the round changed. -/
structure ClosedForm (c : Committee) (start : Round) (blocks : List BlockRef) : Prop where
  round : ∀ before after, blocks = before ++ after →
    (run c (new start) before).round = expected c start before
  answer : ∀ before block after, blocks = before ++ block :: after →
    (((run c (new start) before).addBlock c block).1 = true ↔
      (run c (new start) (before ++ [block])).round ≠ (run c (new start) before).round)

theorem ClosedForm.of_append {c : Committee} {start : Round} {blocks more : List BlockRef}
    (h : ClosedForm c start (blocks ++ more)) : ClosedForm c start blocks :=
  ⟨fun before after hsplit => h.round before (after ++ more) (by rw [hsplit, List.append_assoc]),
    fun before block after hsplit => h.answer before block (after ++ more) (by simp [hsplit])⟩

/-- Along a sequence that follows up no lone jump the clock keeps to its closed form. -/
theorem follows_run {c : Committee} {start : Round} {blocks : List BlockRef}
    (hrounds : ∀ block ∈ blocks, block.round < u32Size - 1)
    (hnot : ¬ FollowedUp c start blocks) : Follows c start blocks (run c (new start) blocks) := by
  induction blocks using List.reverseRecOn with
  | nil => exact follows_new c start
  | append_singleton blocks block ih =>
    rw [followedUp_append, not_or] at hnot
    rw [run_append_singleton]
    have hbefore := ih (fun b hb => hrounds b (by simp [hb])) hnot.1
    exact hbefore.addBlock (hrounds block (by simp)) hnot.2

theorem FollowedUp.append {c : Committee} {start : Round} {blocks more : List BlockRef}
    (h : FollowedUp c start blocks) : FollowedUp c start (blocks ++ more) := by
  obtain ⟨before, next, after, jump, rfl, hjump, hround⟩ := h
  exact ⟨before, next, after ++ more, jump, by simp, hjump, hround⟩

/-- **The threshold clock**, for every committee, start round and sequence of blocks: it
stands at its closed form after every block, and answers true exactly when the round
changes, if and only if no block of the very next round follows a jump made by an author
that is a quorum alone. The closed form depends only on the set of blocks. -/
theorem closedForm_iff (c : Committee) (start : Round) (blocks : List BlockRef)
    (hrounds : ∀ block ∈ blocks, block.round < u32Size - 1) :
    (ClosedForm c start blocks ↔ ¬ FollowedUp c start blocks) ∧
      ∀ blocks' : List BlockRef, (∀ b, b ∈ blocks' ↔ b ∈ blocks) →
        expected c start blocks' = expected c start blocks := by
  refine ⟨⟨fun hclosed => ?_, fun hnot => ⟨?_, ?_⟩⟩, fun blocks' h => expected_congr h⟩
  · -- The first block to follow up a lone jump finds the clock still on its closed form.
    induction blocks using List.reverseRecOn with
    | nil =>
      rintro ⟨before, next, after, jump, hsplit, -⟩
      simp at hsplit
    | append_singleton blocks block ih =>
      have hrounds' : ∀ b ∈ blocks, b.round < u32Size - 1 := fun b hb => hrounds b (by simp [hb])
      have hnot := ih hrounds' hclosed.of_append
      rw [followedUp_append, not_or]
      refine ⟨hnot, ?_⟩
      rintro ⟨jump, hjump, hnext⟩
      have hoff := (follows_run hrounds' hnot).diverges (hrounds block (by simp)) hjump hnext
      rw [← run_append_singleton] at hoff
      exact hoff (hclosed.round _ [] (by simp))
  · rintro before after rfl
    exact (follows_run (fun b hb => hrounds b (by simp [hb])) fun h => hnot h.append).round
  · rintro before block after rfl
    rw [run_append_singleton]
    exact addBlock_answer _ (hrounds block (by simp))

/-- A committee of one jumps to round 20 and then skips round 21. -/
theorem closedForm_single_skip :
    (∀ block ∈ [BlockRef.new 20 0 0, BlockRef.new 22 0 0], block.round < u32Size - 1) ∧
      ClosedForm Committee.single 10 [BlockRef.new 20 0 0, BlockRef.new 22 0 0] := by
  have hrounds : ∀ block ∈ [BlockRef.new 20 0 0, BlockRef.new 22 0 0], block.round < u32Size - 1 := by
    decide
  refine ⟨hrounds, (closedForm_iff _ _ _ hrounds).1.mpr ?_⟩
  rintro ⟨before, next, after, jump, hsplit, ⟨first, between, rfl, -⟩, hnext⟩
  have hskip : ∀ a ∈ [BlockRef.new 20 0 0, BlockRef.new 22 0 0],
      ∀ b ∈ [BlockRef.new 20 0 0, BlockRef.new 22 0 0], a.round ≠ b.round + 1 := by decide
  exact hskip next (by rw [hsplit]; simp) jump (by rw [hsplit]; simp) hnext

/-- In a committee of one every block is a quorum. The clock jumps to round 21 on a block
of round 20, and the block of round 21 does not move it: it should stand at 22. -/
theorem single_follow_up_stuck :
    ¬ ClosedForm Committee.single 10 [BlockRef.new 20 0 0, BlockRef.new 21 0 0] := by
  intro h
  have hround := h.round [BlockRef.new 20 0 0, BlockRef.new 21 0 0] [] rfl
  exact absurd hround (by decide)

end ThresholdClock

end DualOptimistic.Consensus
