import DualOptimistic.Consensus.BaseCommitter
import DualOptimistic.Consensus.Universe

/-! What the commit rules compute on a sound store.

On a store that is closed under ancestors, with ancestors of lower rounds, none of the
lookups of the commit rules can fail: a vote is the first reference into the leader's slot
(`isVote_eq`), a certificate is a quorum of votes (`isCertificate_eq`), whatever the cache
of votes already holds, and `ancestorsAtRound` is the part of the history that sits at
the round (`ancestorsAtRound_spec`). -/
namespace DualOptimistic.Consensus
open Data

namespace DagState

/-! ### Sound stores -/

/-- Closed under ancestors of lower rounds, with no block above the highest round. -/
structure Sound (dag : DagState) : Prop where
  closed : dag.Closed
  lower : ∀ {r b}, dag.getBlock r = some b → ∀ a ∈ b.ancestors, a.round < b.round
  highest : ∀ {r b}, dag.blocks.map.get? r = some b → b.round ≤ dag.highestAcceptedRound
  highest_lt : dag.highestAcceptedRound < u32Size

/-- Stored blocks list ancestors of lower rounds. -/
def Descending (dag : DagState) : Prop :=
  ∀ r b, dag.getBlock r = some b → ∀ a ∈ b.ancestors, a.round < b.round

theorem Sound.descending {dag : DagState} (h : dag.Sound) : dag.Descending := fun _ _ hb => h.lower hb

theorem sound_new (sha3 : List UInt8 → BlockDigest) (c : Committee) : (new sha3 c).Sound where
  closed := closed_new sha3 c
  lower := by
    intro r b h a ha
    obtain ⟨i, -, rfl⟩ := List.mem_map.mp (@mem_genesisBlocks sha3 c _ _ h)
    cases ha
  highest h := by cases h
  highest_lt := by show 0 < u32Size; decide

theorem Sound.acceptBlock {dag : DagState} (h : dag.Sound) {b : VerifiedBlock}
    (hb : dag.HasAncestors b) (hlower : ∀ a ∈ b.ancestors, a.round < b.round) :
    (dag.acceptBlock b).Sound where
  closed := h.closed.acceptBlock hb
  lower := by
    intro r x hx
    rw [getBlock_acceptBlock] at hx
    split_ifs at hx with hr
    · rw [← Option.some.inj hx]
      exact hlower
    · exact h.lower hx
  highest := by
    intro r x hx
    have hget : (dag.acceptBlock b).blocks.map.get? r =
        if r = b.reference then some b else dag.blocks.map.get? r := BlockStore.get?_insert ..
    have hmax : (dag.acceptBlock b).highestAcceptedRound =
        if dag.highestAcceptedRound < b.round then b.round else dag.highestAcceptedRound := rfl
    rw [hget] at hx
    rw [hmax]
    split_ifs at hx with hr
    · rw [← Option.some.inj hx]
      split_ifs with hlt
      · exact le_rfl
      · exact le_of_not_gt hlt
    · have hold := h.highest hx
      split_ifs with hlt
      · exact hold.trans hlt.le
      · exact hold
  highest_lt := highest_acceptBlock h.highest_lt b

/-! ### Reading rounds and slots -/

variable {dag : DagState}

/-- At or above the least reference of a slot. -/
theorem new_min_le {round : Round} (h : round < u32Size) {author : AuthorityIndex} {r : BlockRef} :
    BlockRef.new round author BlockDigest.min ≤ r ↔
      round < r.round ∨ round = r.round ∧ author ≤ r.author := by
  have hround : (BlockRef.new round author BlockDigest.min).round = round := Nat.mod_eq_of_lt h
  have hdigest : BlockDigest.min.toNat ≤ r.digest.toNat := Nat.zero_le _
  have hauthor : author ≤ r.author ↔ author < r.author ∨ author = r.author := Nat.le_iff_lt_or_eq
  rw [BlockRef.le_iff, hround, hauthor]
  simp only [BlockRef.new, hdigest, and_true]

/-- At or below the greatest reference of a slot. -/
theorem le_new_max {round : Round} (h : round < u32Size) {author : AuthorityIndex} {r : BlockRef} :
    r ≤ BlockRef.new round author BlockDigest.max ↔
      r.round < round ∨ r.round = round ∧ r.author ≤ author := by
  have hround : (BlockRef.new round author BlockDigest.max).round = round := Nat.mod_eq_of_lt h
  have hdigest : r.digest.toNat ≤ BlockDigest.max.toNat := by
    simp only [BlockDigest.max, BitVec.toNat_allOnes]
    exact Nat.le_sub_one_of_lt r.digest.isLt
  have hauthor : r.author ≤ author ↔ r.author < author ∨ r.author = author := Nat.le_iff_lt_or_eq
  rw [BlockRef.le_iff, hround, hauthor]
  simp only [BlockRef.new, hdigest, and_true]

/-- At or above the least reference of a round. -/
theorem new_zero_le {round : Round} (h : round < u32Size) {r : BlockRef} :
    BlockRef.new round 0 BlockDigest.min ≤ r ↔ round ≤ r.round := by
  rw [new_min_le h]
  constructor
  · intro hle
    rcases hle with hlt | ⟨heq, -⟩
    · exact hlt.le
    · exact heq.le
  · intro hle
    rcases Nat.lt_or_eq_of_le hle with hlt | heq
    · exact .inl hlt
    · exact .inr ⟨heq, Nat.zero_le _⟩

theorem mem_values_range {p : BlockRef → Bool} {b : VerifiedBlock} :
    b ∈ (dag.blocks.map.range p).map Prod.snd ↔
      dag.blocks.map.get? b.reference = some b ∧ p b.reference = true := by
  rw [List.mem_map]
  constructor
  · rintro ⟨⟨r, x⟩, hmem, rfl⟩
    obtain ⟨hget, hp⟩ := OrdMap.mem_range.mp hmem
    have hr := blocks_reference hget
    rw [hr]
    exact ⟨hget, hp⟩
  · intro h
    exact ⟨(b.reference, b), OrdMap.mem_range.mpr h, rfl⟩

theorem values_range_nodup (p : BlockRef → Bool) : ((dag.blocks.map.range p).map Prod.snd).Nodup := by
  refine List.Nodup.of_map VerifiedBlock.reference ?_
  have hkeys : ((dag.blocks.map.range p).map Prod.snd).map VerifiedBlock.reference =
      (dag.blocks.map.range p).map Prod.fst := by
    rw [List.map_map]
    refine List.map_congr_left fun e he => ?_
    exact blocks_reference (OrdMap.mem_range.mp he).1
  rw [hkeys]
  exact dag.blocks.map.keys_nodup.sublist (List.filter_sublist.map _)

/-- A round's uncommitted blocks. The last round does not count: its upper bound wraps. -/
theorem mem_getUncommittedBlocksAtRound {round : Round} (hround : round + 1 < u32Size)
    {b : VerifiedBlock} : b ∈ dag.getUncommittedBlocksAtRound round ↔
      dag.blocks.map.get? b.reference = some b ∧ b.round = round ∧ b.reference ∉ dag.committed := by
  have hlt : round < u32Size := Nat.lt_of_succ_lt hround
  have hrange : (decide (BlockRef.new round 0 BlockDigest.min ≤ b.reference) &&
      decide (b.reference < BlockRef.new (round + 1) 0 BlockDigest.min)) = true ↔ b.round = round := by
    rw [Bool.and_eq_true, decide_eq_true_iff, decide_eq_true_iff, new_zero_le hlt, ← not_le,
      new_zero_le hround, VerifiedBlock.reference_round]
    constructor
    · intro h
      exact Nat.le_antisymm (Nat.le_of_lt_succ (Nat.lt_of_not_le h.2)) h.1
    · intro h
      rw [h]
      exact ⟨le_rfl, Nat.not_succ_le_self _⟩
  rw [getUncommittedBlocksAtRound, List.mem_filter, mem_values_range, hrange, and_assoc]
  simp [isCommitted]

theorem mem_getUncommittedBlocksAtSlot {slot : Slot} (hround : slot.round < u32Size)
    {b : VerifiedBlock} : b ∈ dag.getUncommittedBlocksAtSlot slot ↔
      dag.blocks.map.get? b.reference = some b ∧ b.slot = slot ∧ b.reference ∉ dag.committed := by
  have hrange : (decide (BlockRef.new slot.round slot.authority BlockDigest.min ≤ b.reference) &&
      decide (b.reference ≤ BlockRef.new slot.round slot.authority BlockDigest.max)) = true ↔
      b.slot = slot := by
    rw [Bool.and_eq_true, decide_eq_true_iff, decide_eq_true_iff, new_min_le hround,
      le_new_max hround]
    show _ ↔ Slot.mk b.round b.author = slot
    rw [Slot.mk.injEq]
    constructor
    · rintro ⟨hlt | ⟨heq, hle⟩, hlt' | ⟨heq', hle'⟩⟩
      · exact absurd hlt (Nat.lt_asymm hlt')
      · exact absurd heq' (Nat.ne_of_gt hlt)
      · exact absurd heq (Nat.ne_of_gt hlt')
      · exact ⟨heq', Nat.le_antisymm hle' hle⟩
    · rintro ⟨hr, ha⟩
      exact ⟨.inr ⟨hr.symm, ha.ge⟩, .inr ⟨hr, ha.le⟩⟩
  rw [getUncommittedBlocksAtSlot, List.mem_filter, mem_values_range, hrange, and_assoc]
  simp [isCommitted]

theorem getUncommittedBlocksAtSlot_nodup (slot : Slot) : (dag.getUncommittedBlocksAtSlot slot).Nodup :=
  (values_range_nodup _).filter _

/-! ### Votes -/

theorem firstSupport_eq_none {slot : Slot} {support : VerifiedBlock → Except Panic (Option BlockRef)}
    {l : List BlockRef} (h : ∀ a ∈ l, a.round ≤ slot.round) : dag.firstSupport slot support l = .ok none := by
  induction l with
  | nil => rfl
  | cons a rest ih =>
    rw [firstSupport, if_pos (h a (List.mem_cons_self ..))]
    exact ih fun x hx => h x (List.mem_cons_of_mem _ hx)

/-- One round above the slot there is nothing to recurse into: the support is the first
reference into the slot. -/
theorem findSupportedBlock_eq {slot : Slot} {v : VerifiedBlock}
    (hlower : ∀ a ∈ v.ancestors, a.round < v.round) (hround : v.round ≤ slot.round + 1) (n : Nat) :
    dag.findSupportedBlock slot (n + 1) v =
      .ok (v.ancestors.find? fun a => decide (a.slot = slot)) := by
  rw [findSupportedBlock]
  split_ifs with hlow
  · -- too low to list anything of the slot
    have hnone : (v.ancestors.find? fun a => decide (a.slot = slot)) = none := by
      rw [List.find?_eq_none]
      intro a ha hslot
      have hr : a.round = slot.round := congrArg Slot.round (of_decide_eq_true hslot)
      exact absurd (hr ▸ hlower a ha) (Nat.lt_asymm hlow)
    rw [hnone]
  · cases hfind : v.ancestors.find? fun a => decide (a.slot = slot) with
    | some a => rfl
    | none => exact firstSupport_eq_none fun a ha => Nat.le_of_lt_succ ((hlower a ha).trans_le hround)

theorem isVote_eq {v leader : VerifiedBlock} (hlower : ∀ a ∈ v.ancestors, a.round < v.round)
    (hround : v.round ≤ leader.round + 1) : dag.isVote v leader = .ok (v.supports leader.reference) := by
  rw [isVote, findSupportedBlock_eq hlower hround]
  rfl

/-- The references for which `is_certificate` asks are stored or genesis, so it gets an
answer. -/
theorem refIsVote_eq (h : dag.Sound) {leader : VerifiedBlock} {r : BlockRef}
    (hr : 0 < r.round → dag.containsBlock r = true) (hround : r.round ≤ leader.round + 1) :
    dag.refIsVote leader r = .ok (votesFor dag.getBlock leader.reference r) := by
  unfold refIsVote votesFor
  cases hget : dag.getBlock r with
  | some v =>
    have hvr : v.round = r.round := by rw [← getBlock_reference hget, VerifiedBlock.reference_round]
    exact isVote_eq (h.lower hget) (hvr ▸ hround)
  | none =>
    have hgc : r.round ≤ dag.gcRound := by
      by_contra hpos
      obtain ⟨v, hv⟩ := containsBlock_iff.mp (hr (Nat.lt_of_not_le hpos))
      rw [hget] at hv
      cases hv
    exact if_pos hgc

/-! ### Certificates -/

/-- The cache holds only what `refIsVote` answers. -/
def VotesCached (dag : DagState) (leader : VerifiedBlock) (allVotes : OrdMap BlockRef Bool) : Prop :=
  ∀ r vote, allVotes.get? r = some vote → vote = votesFor dag.getBlock leader.reference r

theorem votesCached_empty (leader : VerifiedBlock) : dag.VotesCached leader ∅ := by
  intro r vote h
  cases h

/-- With a true cache the loop adds up the authors of the votes. -/
theorem countVotes_eq {leader : VerifiedBlock} {refs : List BlockRef}
    (hrefs : ∀ r ∈ refs, dag.refIsVote leader r = .ok (votesFor dag.getBlock leader.reference r))
    (votesStake : StakeAggregator) {allVotes : OrdMap BlockRef Bool}
    (hcache : dag.VotesCached leader allVotes) :
    ∃ allVotes', dag.VotesCached leader allVotes' ∧
      dag.countVotes leader refs votesStake allVotes =
        .ok (StakeAggregator.addAll dag.committee votesStake
          ((refs.filter (votesFor dag.getBlock leader.reference)).map BlockRef.author), allVotes') := by
  induction refs generalizing votesStake allVotes with
  | nil => exact ⟨allVotes, hcache, rfl⟩
  | cons r rest ih =>
    have hrest := fun x hx => hrefs x (List.mem_cons_of_mem _ hx)
    -- asked of the cache or of the store, the answer is the same
    obtain ⟨allVotes₁, hcache₁, hstep⟩ : ∃ allVotes₁, dag.VotesCached leader allVotes₁ ∧
        dag.countVotes leader (r :: rest) votesStake allVotes =
          if votesFor dag.getBlock leader.reference r = true then
            if (votesStake.add r.author dag.committee).1 then .ok (true, allVotes₁)
            else dag.countVotes leader rest (votesStake.add r.author dag.committee).2 allVotes₁
          else dag.countVotes leader rest votesStake allVotes₁ := by
      rw [countVotes]
      cases hget : allVotes.get? r with
      | some cached =>
        refine ⟨allVotes, hcache, ?_⟩
        rw [← hcache r cached hget]
        rfl
      | none =>
        refine ⟨allVotes.insert r (votesFor dag.getBlock leader.reference r), ?_, ?_⟩
        · intro x vote hx
          rw [OrdMap.get?_insert] at hx
          split_ifs at hx with hxr
          · rw [← Option.some.inj hx, hxr]
          · exact hcache x vote hx
        · rw [hrefs r (List.mem_cons_self ..)]
          rfl
    rw [hstep]
    rw [List.filter_cons]
    split_ifs with hv hreached
    · refine ⟨allVotes₁, hcache₁, ?_⟩
      rw [List.map_cons, StakeAggregator.addAll, hreached]
      rfl
    · obtain ⟨allVotes', hcache', heq⟩ := ih hrest (votesStake.add r.author dag.committee).2 hcache₁
      refine ⟨allVotes', hcache', ?_⟩
      rw [heq, List.map_cons, StakeAggregator.addAll, Bool.eq_false_of_not_eq_true hreached, Bool.false_or]
    · exact ih hrest votesStake hcache₁

/-- **`is_certificate`** is the quorum of votes, whatever was asked before. -/
theorem isCertificate_eq (h : dag.Sound) {d leader : VerifiedBlock}
    (hd : dag.getBlock d.reference = some d) (hround : d.round ≤ leader.round + 2)
    {allVotes : OrdMap BlockRef Bool} (hcache : dag.VotesCached leader allVotes) :
    ∃ allVotes', dag.VotesCached leader allVotes' ∧
      dag.isCertificate d leader allVotes =
        .ok (decide (Certifies dag.committee dag.getBlock leader.reference d), allVotes') := by
  have hrefs : ∀ r ∈ d.ancestors,
      dag.refIsVote leader r = .ok (votesFor dag.getBlock leader.reference r) := by
    intro r hr
    refine refIsVote_eq h (h.closed _ d hd r hr) ?_
    exact Nat.le_of_lt_succ ((h.lower hd r hr).trans_le hround)
  obtain ⟨allVotes', hcache', heq⟩ := countVotes_eq hrefs .new hcache
  refine ⟨allVotes', hcache', ?_⟩
  rw [isCertificate, heq]
  congr 2
  rw [Bool.eq_iff_iff, StakeAggregator.addAll_spec, decide_eq_true_iff]
  rfl

theorem anyCertificate_eq (h : dag.Sound) {leader : VerifiedBlock} {l : List VerifiedBlock}
    (hl : ∀ d ∈ l, dag.getBlock d.reference = some d ∧ d.round ≤ leader.round + 2)
    {allVotes : OrdMap BlockRef Bool} (hcache : dag.VotesCached leader allVotes) :
    dag.anyCertificate leader l allVotes =
      .ok (l.any fun d => decide (Certifies dag.committee dag.getBlock leader.reference d)) := by
  induction l generalizing allVotes with
  | nil => rfl
  | cons d rest ih =>
    obtain ⟨hd, hround⟩ := hl d (List.mem_cons_self ..)
    obtain ⟨allVotes', hcache', heq⟩ := isCertificate_eq h hd hround hcache
    have hrest := ih (fun x hx => hl x (List.mem_cons_of_mem _ hx)) hcache'
    rw [anyCertificate, heq, List.any_cons]
    show (if decide (Certifies dag.committee dag.getBlock leader.reference d) = true then pure true
      else dag.anyCertificate leader rest allVotes') = _
    rw [hrest]
    split_ifs with hcert
    · rw [hcert, Bool.true_or]
      rfl
    · rw [Bool.eq_false_of_not_eq_true hcert, Bool.false_or]

theorem countCertificates_eq (h : dag.Sound) {leader : VerifiedBlock} {l : List VerifiedBlock}
    (hl : ∀ d ∈ l, dag.getBlock d.reference = some d ∧ d.round ≤ leader.round + 2)
    (support : StakeAggregator) {allVotes : OrdMap BlockRef Bool}
    (hcache : dag.VotesCached leader allVotes) :
    dag.countCertificates leader l support allVotes =
      .ok (StakeAggregator.addAll dag.committee support
        ((l.filter fun d => decide (Certifies dag.committee dag.getBlock leader.reference d)).map
          VerifiedBlock.author)) := by
  induction l generalizing support allVotes with
  | nil => rfl
  | cons d rest ih =>
    obtain ⟨hd, hround⟩ := hl d (List.mem_cons_self ..)
    obtain ⟨allVotes', hcache', heq⟩ := isCertificate_eq h hd hround hcache
    have hrest := fun support => ih (fun x hx => hl x (List.mem_cons_of_mem _ hx)) support hcache'
    rw [countCertificates, heq, List.filter_cons]
    show (if decide (Certifies dag.committee dag.getBlock leader.reference d) = true then
        if (support.add d.author dag.committee).1 then pure true
        else dag.countCertificates leader rest (support.add d.author dag.committee).2 allVotes'
      else dag.countCertificates leader rest support allVotes') = _
    rw [hrest, hrest]
    split_ifs with hcert hreached
    · rw [List.map_cons, StakeAggregator.addAll, hreached]
      rfl
    · rw [List.map_cons, StakeAggregator.addAll, Bool.eq_false_of_not_eq_true hreached, Bool.false_or]
    · rfl

/-- The authors at `decision` whose blocks certify the leader. -/
def certifiers (dag : DagState) (leader : BlockRef) (decision : Round) : Finset AuthorityIndex :=
  (((dag.getUncommittedBlocksAtRound decision).filter fun d =>
    decide (Certifies dag.committee dag.getBlock leader d)).map VerifiedBlock.author).toFinset

/-- **`enough_leader_support`** is a quorum of certificates. -/
theorem enoughLeaderSupport_eq (h : dag.Sound) {leader : VerifiedBlock} {decision : Round}
    (hdecision : decision + 1 < u32Size) (hround : decision ≤ leader.round + 2) :
    dag.enoughLeaderSupport decision leader =
      .ok (decide (dag.committee.Quorum (dag.certifiers leader.reference decision))) := by
  have hstored : ∀ d ∈ dag.getUncommittedBlocksAtRound decision,
      dag.getBlock d.reference = some d ∧ d.round ≤ leader.round + 2 := by
    intro d hd
    obtain ⟨hget, hdr, -⟩ := (mem_getUncommittedBlocksAtRound hdecision).mp hd
    exact ⟨by rw [getBlock, hget]; rfl, hdr ▸ hround⟩
  rw [enoughLeaderSupport, countCertificates_eq h hstored .new (votesCached_empty leader)]
  congr 1
  rw [Bool.eq_iff_iff, StakeAggregator.addAll_spec, decide_eq_true_iff]
  rfl

/-! ### Ancestors at a round -/

theorem mem_ancestorRefs {r a : BlockRef} :
    a ∈ dag.ancestorRefs r ↔ ∃ b, dag.getBlock r = some b ∧ a ∈ b.ancestors := by
  unfold ancestorRefs
  cases dag.getBlock r with
  | none => simp
  | some b => simp

theorem Descending.ancestorRefs_lt (h : dag.Descending) {r a : BlockRef} (ha : a ∈ dag.ancestorRefs r) : a < r := by
  obtain ⟨b, hb, hmem⟩ := mem_ancestorRefs.mp ha
  have hlt := h _ b hb a hmem
  rw [← VerifiedBlock.reference_round, getBlock_reference hb] at hlt
  exact BlockRef.lt_of_round_lt hlt

/-- Histories go down in rounds. -/
theorem Descending.reaches_lt (h : dag.Descending) {a b : VerifiedBlock} (ha : dag.getBlock a.reference = some a)
    (hreach : Reaches dag.getBlock a b) : b.round < a.round := by
  have hstep : ∀ {x y : VerifiedBlock}, dag.getBlock x.reference = some x → Lists dag.getBlock x y →
      y.round < x.round ∧ dag.getBlock y.reference = some y := by
    intro x y hx hlists
    obtain ⟨r, hr, hy⟩ := hlists
    have href : y.reference = r := getBlock_reference hy
    have hlt := h _ x hx r hr
    rw [← href] at hlt hy
    exact ⟨hlt, hy⟩
  suffices b.round < a.round ∧ dag.getBlock b.reference = some b from this.1
  induction hreach with
  | single hlists => exact hstep ha hlists
  | tail _ hlists ih =>
    obtain ⟨hlt, hget⟩ := hstep ih.2 hlists
    exact ⟨hlt.trans ih.1, hget⟩

/-- The edges the sweep follows are steps of the history. -/
theorem reaches_of_follows {later d : VerifiedBlock} {stop : BlockRef → Bool} {x : BlockRef}
    (hx : x ∈ later.ancestors) (hd : dag.getBlock d.reference = some d)
    (hpath : Relation.ReflTransGen (Follows dag.ancestorRefs stop) x d.reference) :
    Reaches dag.getBlock later d := by
  induction hpath using Relation.ReflTransGen.head_induction_on generalizing later with
  | refl => exact .single ⟨_, hx, hd⟩
  | @head x z hstep _ ih =>
    obtain ⟨b, hb, hz⟩ := mem_ancestorRefs.mp hstep.2
    exact .head ⟨x, hx, hb⟩ (ih hz)

/-- A history that ends at a round goes through higher rounds only. -/
theorem Descending.follows_of_reaches (h : dag.Descending) {later d : VerifiedBlock} {earlier : Round}
    (hround : d.round = earlier) (hreach : Reaches dag.getBlock later d) :
    ∃ x ∈ later.ancestors, Relation.ReflTransGen
      (Follows dag.ancestorRefs fun r => decide (r.round ≤ earlier)) x d.reference := by
  induction hreach using Relation.TransGen.head_induction_on with
  | single hlists =>
    obtain ⟨r, hr, hd⟩ := hlists
    exact ⟨r, hr, getBlock_reference hd ▸ .refl⟩
  | @head b b' hlists hreach' ih =>
    obtain ⟨r, hr, hb'⟩ := hlists
    obtain ⟨x, hx, hpath⟩ := ih
    have href : b'.reference = r := getBlock_reference hb'
    have habove : d.round < b'.round := h.reaches_lt (href ▸ hb') hreach'
    refine ⟨r, hr, hpath.head ⟨?_, mem_ancestorRefs.mpr ⟨b', hb', hx⟩⟩⟩
    rw [hround, ← VerifiedBlock.reference_round, href] at habove
    exact decide_eq_false (Nat.not_le_of_lt habove)

/-- The sweep ends: each listed reference is expanded at most once. -/
theorem Descending.ancestorsSweep_terminates (h : dag.Descending) (later : VerifiedBlock)
    (stop : BlockRef → Bool) :
    ∃ linked, sweep dag.ancestorRefs stop (dag.ancestorFuel later)
      (OrdSet.addAll ∅ later.ancestors) = some linked := by
  let stored := dag.blocks.map.values ++ dag.genesis.map.values
  let K := (later.ancestors ++ stored.flatMap VerifiedBlock.ancestors).toFinset
  have hlisted : ∀ x, ∀ y ∈ dag.ancestorRefs x, y ∈ K := by
    intro x y hy
    obtain ⟨b, hb, hmem⟩ := mem_ancestorRefs.mp hy
    have hstored : b ∈ stored := by
      rcases Option.or_eq_some_iff.mp hb with hb | ⟨-, hb⟩
      · exact List.mem_append_left _ (List.mem_map_of_mem (OrdMap.get?_eq_some_iff.mp hb))
      · exact List.mem_append_right _ (List.mem_map_of_mem (OrdMap.get?_eq_some_iff.mp hb))
    exact List.mem_toFinset.mpr (List.mem_append_right _ (List.mem_flatMap.mpr ⟨b, hstored, hmem⟩))
  have hstart : ∀ y ∈ OrdSet.toList (OrdSet.addAll ∅ later.ancestors), y ∈ K := by
    intro y hy
    rw [OrdSet.mem_toList_addAll] at hy
    exact List.mem_toFinset.mpr (List.mem_append_left _ (hy.resolve_right OrdSet.mem_toList_empty))
  have hcard : K.card < dag.ancestorFuel later := by
    have hle := List.toFinset_card_le (later.ancestors ++ stored.flatMap VerifiedBlock.ancestors)
    rw [List.length_append, List.length_flatMap] at hle
    exact Nat.lt_succ_of_le hle
  exact sweep_terminates (fun x y => h.ancestorRefs_lt) hlisted hstart hcard

/-- **`ancestors_at_round`** ends, and returns the blocks of the round in the history of
`later`, each once. -/
theorem Descending.ancestorsAtRound_spec (h : dag.Descending) (later : VerifiedBlock) {earlier : Round}
    (hearlier : earlier < u32Size) :
    ∃ l, dag.ancestorsAtRound later earlier = .ok l ∧ l.Nodup ∧
      ∀ d, d ∈ l ↔ dag.getBlock d.reference = some d ∧ d.round = earlier ∧
        Reaches dag.getBlock later d := by
  obtain ⟨linked, hlinked⟩ := h.ancestorsSweep_terminates later fun r => decide (r.round ≤ earlier)
  have hdown : ∀ x y : BlockRef, y ≤ x → decide (x.round ≤ earlier) = true →
      decide (y.round ≤ earlier) = true := by
    intro x y hle hx
    rw [decide_eq_true_iff] at hx ⊢
    exact (BlockRef.round_le_of_le hle).trans hx
  have hmem := sweep_spec hdown hlinked
  unfold ancestorsAtRound
  rw [hlinked]
  refine ⟨_, rfl, ?_, fun d => ?_⟩
  · refine List.Nodup.filterMap ?_ (linked.keys_nodup.sublist (List.filter_sublist.map _))
    intro r r' b hb hb'
    rw [← getBlock_reference hb, ← getBlock_reference hb']
  · have hfst : ∀ r, (r ∈ (OrdMap.range linked fun r =>
        decide (BlockRef.new earlier 0 BlockDigest.min ≤ r)).map Prod.fst) ↔
        r ∈ OrdSet.toList linked ∧ earlier ≤ r.round := by
      intro r
      rw [List.mem_map, OrdSet.mem_toList, OrdMap.contains_iff]
      constructor
      · rintro ⟨⟨r', u⟩, hr', rfl⟩
        obtain ⟨hget, hle⟩ := OrdMap.mem_range.mp hr'
        exact ⟨⟨u, hget⟩, (new_zero_le hearlier).mp (of_decide_eq_true hle)⟩
      · rintro ⟨⟨u, hget⟩, hle⟩
        exact ⟨(r, u), OrdMap.mem_range.mpr ⟨hget, decide_eq_true ((new_zero_le hearlier).mpr hle)⟩, rfl⟩
    rw [List.mem_filterMap]
    constructor
    · rintro ⟨r, hr, hd⟩
      have href : d.reference = r := getBlock_reference hd
      rw [hfst, hmem, decide_eq_true_iff, ← href] at hr
      obtain ⟨⟨hle, x, hx, hpath⟩, hge⟩ := hr
      rw [OrdSet.mem_toList_addAll] at hx
      rw [← href] at hd
      exact ⟨hd, Nat.le_antisymm hle hge,
        reaches_of_follows (hx.resolve_right OrdSet.mem_toList_empty) hd hpath⟩
    · rintro ⟨hd, hround, hreach⟩
      obtain ⟨x, hx, hpath⟩ := h.follows_of_reaches hround hreach
      refine ⟨d.reference, ?_, hd⟩
      rw [hfst, hmem, decide_eq_true_iff]
      exact ⟨⟨hround.le, x, OrdSet.mem_toList_addAll.mpr (.inl hx), hpath⟩, hround.ge⟩

end DagState

end DualOptimistic.Consensus
