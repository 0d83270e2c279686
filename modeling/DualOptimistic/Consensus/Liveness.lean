import DualOptimistic.Consensus.CausalRuns

/-! What a node is sure to commit.

A wave whose leader is certified by a quorum of the blocks fed is decided, and so is every wave
below it (`Decided.downward`); the leader is sent as a final commit, with all of its history
(`run_commits_certified`). Where the voting blocks of a wave all support its leader, the parents
of each decision block are votes, so that every decision block is a certificate; when this holds
of all waves up to some wave, none of them is skipped (`run_commits_every_wave`). -/
namespace DualOptimistic.Consensus
open Data

/-! ### What was reached -/

theorem label_getElem? {c : Committee} {w : WaveNumber} {l : List (Option (Option VerifiedBlock))} {i : Nat} :
    (label c w l)[i]? = (l[i]?).map (LeaderStatus.ofStatus (leaderSlot c (w + i))) := by
  induction l generalizing w i with
  | nil => rfl
  | cons s rest ih =>
    cases i with
    | zero => rfl
    | succ i =>
      rw [label, List.getElem?_cons_succ, List.getElem?_cons_succ, ih, Nat.add_right_comm, Nat.add_assoc]

section
variable {sha3 : List UInt8 → BlockDigest} {c : Committee} {U : Universe c}

/-- Drawn from some blocks of the universe, drawn from the universe. -/
theorem Universe.Drawn.of_restrict {S : Set BlockRef} [DecidablePred (· ∈ S)] {dag : DagState}
    (h : (U.restrict S).Drawn dag) : U.Drawn dag where
  committee := h.committee
  sound := h.sound
  has hb := (Universe.restrict_has.mp (h.has hb)).2
  top := h.top

/-- What a stored block certifies does not depend on the blocks that are not stored. -/
theorem Universe.Drawn.certifies_restrict_iff {S : Set BlockRef} [DecidablePred (· ∈ S)] {dag : DagState}
    (h : (U.restrict S).Drawn dag) {d : VerifiedBlock} (hd : dag.Stores d) {leader : BlockRef} :
    Certifies c (U.restrict S).block leader d ↔ Certifies c U.block leader d :=
  (h.certifies_iff hd).symm.trans (h.of_restrict.certifies_iff hd)

/-- **A certified leader's wave is decided**, and the waves below it are. -/
theorem Reached.certified (hclosed : U.Closed) (hparents : U.QuorumParents) {s : HardState}
    {verdicts : List (Option VerifiedBlock)} {subDags : List CommittedSubDag}
    (h : Reached sha3 U s verdicts subDags) {w : WaveNumber} (hw : 0 < w) {leader : VerifiedBlock}
    (hstored : s.dag.Stores leader) (hslot : leader.slot = leaderSlot c w)
    (hcert : Universe.Backed c s.dag.Stores (3 * w + 2) (Certifies c U.block leader.reference)) :
    verdicts[w - 1]? = some (some leader) := by
  obtain ⟨hdecided, hopen⟩ := h.settled hclosed hparents
  have hcommit : WaveRule.Decided (U.view hclosed hparents s.dag.Stores fun _ => h.drawn.has) w (some leader) :=
    .commit ⟨⟨hw, hstored, hslot⟩, hcert⟩
  have hlt : w - 1 < verdicts.length := by
    by_contra hge
    have harith : ∀ n m : Nat, 0 < m → ¬ m - 1 < n → n + 1 ≤ m := by omega
    obtain ⟨v, hv⟩ := hcommit.downward (harith _ _ hw hge)
    exact hopen v hv
  have hget : verdicts[w - 1]? = some verdicts[w - 1] := List.getElem?_eq_getElem hlt
  have hdec := hdecided _ _ hget
  rw [Nat.sub_add_cancel hw] at hdec
  rw [hget, hdec.agree hcommit]

/-- A sub-dag and those before it hold what its blocks list above genesis. -/
theorem WellOrdered.history {subDags : List CommittedSubDag} (h : WellOrdered subDags)
    (hhas : ∀ b ∈ subDags.flatMap CommittedSubDag.blocks, U.Has b) {first rest : List CommittedSubDag}
    (hsplit : subDags = first ++ rest) {a b : VerifiedBlock} (ha : a ∈ first.flatMap CommittedSubDag.blocks)
    (hreach : Reaches U.block a b) (hpos : 0 < b.round) : b ∈ first.flatMap CommittedSubDag.blocks := by
  subst hsplit
  rw [List.flatMap_append] at hhas
  have hmem : ∀ x ∈ first.flatMap CommittedSubDag.blocks, ∀ y, Lists U.block x y → 0 < y.round →
      y ∈ first.flatMap CommittedSubDag.blocks := by
    intro x hx y hlists hy
    obtain ⟨r, hr, hblock⟩ := hlists
    have hyr : y.reference = r := U.keyed hblock
    obtain ⟨before, after, hbefore⟩ := List.append_of_mem hx
    obtain ⟨z, hz, hzr⟩ := h.causal before x (after ++ rest.flatMap CommittedSubDag.blocks)
      (by rw [List.flatMap_append, hbefore, List.append_assoc, List.cons_append]) r hr (hyr ▸ hy)
    have hzfirst : z ∈ first.flatMap CommittedSubDag.blocks := by
      rw [hbefore]
      exact List.mem_append_left _ hz
    have hzhas : U.Has z := hhas z (List.mem_append_left _ hzfirst)
    rwa [← hzhas.eq (Universe.has_of_block hblock) (hzr.trans hyr.symm)]
  induction hreach using Relation.TransGen.head_induction_on with
  | single hlists => exact hmem _ ha _ hlists hpos
  | head hlists hreach ih =>
    -- what lists a block is above round 0
    obtain ⟨y, ⟨r, hr, -⟩, -⟩ := Relation.TransGen.head'_iff.mp hreach
    have hlower := (Universe.Lists.has hlists).lower hr
    exact ih (hmem _ ha _ hlists (Nat.zero_lt_of_lt hlower))

/-! ### What was sent -/

/-- **A sub-dag and those before it hold the history of its leader.** -/
theorem Reached.history (hclosed : U.Closed) {s : HardState} {verdicts : List (Option VerifiedBlock)}
    {subDags : List CommittedSubDag} (h : Reached sha3 U s verdicts subDags) {before after : List CommittedSubDag}
    {d : CommittedSubDag} (hsplit : subDags = before ++ d :: after) :
    ∃ leader, some leader ∈ verdicts ∧ U.Has leader ∧ leader.reference = d.leader ∧
      ∀ b, b = leader ∨ Reaches U.block leader b → 0 < b.round →
        b ∈ (before ++ [d]).flatMap CommittedSubDag.blocks := by
  have hordered := h.wellOrdered hclosed
  have hhas : ∀ b ∈ subDags.flatMap CommittedSubDag.blocks, U.Has b := fun b hb => (h.commits.once.2 b hb).1
  have hd : d ∈ subDags := by
    rw [hsplit]
    exact List.mem_append_right _ (List.mem_cons_self ..)
  -- the leader is the last block of its sub-dag
  obtain ⟨rest, leader, hblocks, hleader⟩ := hordered.leaderLast d hd
  have hmem : leader ∈ d.blocks := by
    rw [hblocks]
    exact List.mem_append_right _ (List.mem_singleton_self _)
  have hleaderhas := hhas leader (List.mem_flatMap.mpr ⟨d, hd, hmem⟩)
  have hfirst : leader ∈ (before ++ [d]).flatMap CommittedSubDag.blocks :=
    List.mem_flatMap.mpr ⟨d, List.mem_append_right _ (List.mem_singleton_self _), hmem⟩
  refine ⟨leader, ?_, hleaderhas, hleader, fun b hb hpos => ?_⟩
  · have hmapped : d.leader ∈ subDags.map CommittedSubDag.leader := List.mem_map_of_mem hd
    rw [h.commits.leaders_eq, List.mem_map] at hmapped
    obtain ⟨x, hx, hxd⟩ := hmapped
    obtain ⟨v, hv, hvx⟩ := List.mem_filterMap.mp hx
    have hv' : some x ∈ verdicts := hvx ▸ hv
    obtain ⟨i, hi⟩ := List.mem_iff_getElem?.mp hv'
    rwa [(h.drawn.has (h.leaders i x hi).1).eq hleaderhas (hxd.trans hleader.symm)] at hv'
  · rcases hb with rfl | hreach
    · exact hfirst
    · exact hordered.history hhas (hsplit.trans (List.append_cons ..)) hfirst hreach hpos

/-- The leader is committed, and the blocks of its history by the same commit or an earlier one. -/
def CommittedWithHistory (U : Universe c) (commits : List OurCommittedSubDag) (leader : VerifiedBlock) : Prop :=
  ∃ before subdag after, commits = before ++ subdag :: after ∧ subdag.leader = leader.reference ∧
    ∀ b, b = leader ∨ Reaches U.block leader b → 0 < b.round → ∃ s ∈ before ++ [subdag], toSharedBlock b ∈ s.blocks

theorem mem_toSharedSubdag {subDags : List CommittedSubDag} {b : VerifiedBlock}
    (h : b ∈ subDags.flatMap CommittedSubDag.blocks) :
    ∃ s ∈ subDags.map toSharedSubdag, toSharedBlock b ∈ s.blocks := by
  obtain ⟨d, hd, hb⟩ := List.mem_flatMap.mp h
  exact ⟨toSharedSubdag d, List.mem_map_of_mem hd, List.mem_map_of_mem hb⟩

theorem Reached.committedWithHistory (hclosed : U.Closed) {s : HardState} {verdicts : List (Option VerifiedBlock)}
    {subDags : List CommittedSubDag} (h : Reached sha3 U s verdicts subDags) {leader : VerifiedBlock}
    (hleader : some leader ∈ verdicts) : CommittedWithHistory U (subDags.map toSharedSubdag) leader := by
  obtain ⟨i, hi⟩ := List.mem_iff_getElem?.mp hleader
  have hleaderhas : U.Has leader := h.drawn.has (h.leaders i leader hi).1
  have hcommitted : leader.reference ∈ subDags.map CommittedSubDag.leader := by
    rw [h.commits.leaders_eq]
    exact List.mem_map_of_mem (List.mem_filterMap.mpr ⟨some leader, hleader, rfl⟩)
  obtain ⟨d, hd, hdleader⟩ := List.mem_map.mp hcommitted
  obtain ⟨before, after, hsplit⟩ := List.append_of_mem hd
  obtain ⟨x, -, hxhas, hxd, hhistory⟩ := h.history hclosed hsplit
  obtain rfl : x = leader := hxhas.eq hleaderhas (hxd.trans hdleader)
  refine ⟨before.map toSharedSubdag, toSharedSubdag d, after.map toSharedSubdag, ?_, hdleader, fun b hb hpos => ?_⟩
  · rw [hsplit, List.map_append, List.map_cons]
  · have hmem := mem_toSharedSubdag (hhistory b hb hpos)
    rwa [List.map_append, List.map_singleton] at hmem

/-- What a fed block has in its history above genesis, it has there among the blocks fed. -/
theorem reaches_restrict {blocks : List VerifiedBlock} [DecidablePred (· ∈ fedRefs blocks)]
    (hcausal : (DagState.new sha3 c).CausalOrder blocks) (hfed : ∀ b ∈ blocks, U.Has b) {a b : VerifiedBlock}
    (ha : a ∈ blocks) (hreach : Reaches U.block a b) (hpos : 0 < b.round) :
    Reaches (U.restrict (fedRefs blocks)).block a b := by
  have hlists : ∀ {x y}, x ∈ blocks → Lists U.block x y → 0 < y.round →
      y ∈ blocks ∧ Lists (U.restrict (fedRefs blocks)).block x y := by
    intro x y hx hlists hy
    obtain ⟨r, hr, hblock⟩ := hlists
    have hyr : y.reference = r := U.keyed hblock
    obtain ⟨z, hz, hzr⟩ := fed_ancestors hcausal hx hr (hyr ▸ hy)
    obtain rfl : z = y := (hfed z hz).eq (Universe.has_of_block hblock) (hzr.trans hyr.symm)
    have hrestricted : (U.restrict (fedRefs blocks)).block r = U.block r := if_pos ⟨z, hz, hzr⟩
    exact ⟨hz, r, hr, hrestricted.trans hblock⟩
  induction hreach using Relation.TransGen.head_induction_on with
  | single hstep => exact .single (hlists ha hstep hpos).2
  | head hstep hreach ih =>
    obtain ⟨y, ⟨r, hr, -⟩, -⟩ := Relation.TransGen.head'_iff.mp hreach
    obtain ⟨hmem, hstep'⟩ := hlists ha hstep (Nat.zero_lt_of_lt ((Universe.Lists.has hstep).lower hr))
    exact .head hstep' (ih hmem)

end

/-! ### Certified leaders -/

open Classical in
/-- What a run in causal order leaves, over the universe of what was fed: nothing was missed, and
a leader certified by a quorum of the fed blocks is the decision of its wave. -/
theorem run_reaches {sha3 : List UInt8 → BlockDigest} {c : Committee} {U : Universe c} (hdistinct : U.Distinct)
    (hparents : U.QuorumParents) {batches : List (List VerifiedBlock)} (hfed : ∀ b ∈ batches.flatten, U.Has b)
    (hcausal : (DagState.new sha3 c).CausalOrder (BlockManager.processed batches)) :
    let o := (ConsensusNode.new sha3 c).run sha3 batches
    ∃ (vs : List (Option VerifiedBlock)) (node : ConsensusNode), o.node = .ok node ∧
      o.decided.map DecidedLeader.status = label c 1 (vs.map some) ∧
      (∀ w leader, 0 < w → leader ∈ batches.flatten → leader.slot = leaderSlot c w →
        Universe.Backed c (· ∈ batches.flatten) (3 * w + 2) (Certifies c U.block leader.reference) →
        vs[w - 1]? = some (some leader)) ∧
      (∀ leader, some leader ∈ vs → CommittedWithHistory U (hardCommits o.events) leader) ∧
      (hardCommits o.events).map OurCommittedSubDag.leader = (vs.filterMap id).map VerifiedBlock.reference ∧
      (hardCommits o.events).map OurCommittedSubDag.commitIndex =
        List.range' 1 (hardCommits o.events).length ∧
      (hardCommits o.events).Pairwise fun s s' => s.leader.round < s'.leader.round := by
  intro o
  have hfed' : ∀ b ∈ BlockManager.processed batches, U.Has b := fun b hb => hfed b (mem_processed_iff.mp hb)
  let S := fedRefs (BlockManager.processed batches)
  have hclosed : (U.restrict S).Closed :=
    restrict_closed fun r hr => ⟨BlockManager.processed batches, hfed', hcausal, hr, Set.Subset.refl _⟩
  obtain ⟨vs, new, node, hadds⟩ := (causal_new sha3 (U.restrict S)).run hdistinct.restrict.linksDistinct
    (fun b hb => Universe.restrict_has.mpr ⟨⟨b, mem_processed_iff.mpr hb, rfl⟩, hfed b hb⟩) hcausal
  have hreached := hadds.causal.reached
  rw [List.nil_append, List.nil_append] at hreached
  have hcommits : hardCommits o.events = new.map toSharedSubdag := hadds.commits
  have hordered := hreached.wellOrdered hclosed
  refine ⟨vs, node, hadds.node, hadds.decided, fun w leader hw hleader hslot hcert => ?_, fun leader hleader => ?_,
    ?_, ?_, ?_⟩
  · have hround : leader.round = 3 * w := congrArg Slot.round hslot
    have hstored := hadds.stored leader hleader (hround ▸ Nat.mul_pos (by decide) hw)
    refine hreached.certified hclosed hparents.restrict hw hstored hslot ?_
    obtain ⟨A, hA, hcert⟩ := hcert
    refine ⟨A, hA, fun i hi => ?_⟩
    obtain ⟨d, hd, hauthor, hdround, hdcert⟩ := hcert i hi
    have hdstored := hadds.stored d hd (hdround ▸ Nat.succ_pos _)
    exact ⟨d, hdstored, hauthor, hdround, (hreached.drawn.certifies_restrict_iff hdstored).mpr hdcert⟩
  · rw [hcommits]
    obtain ⟨before, subdag, after, hsplit, hsubdag, hhistory⟩ := hreached.committedWithHistory hclosed hleader
    refine ⟨before, subdag, after, hsplit, hsubdag, fun b hb hpos => hhistory b (hb.imp_right fun hreach => ?_) hpos⟩
    obtain ⟨i, hi⟩ := List.mem_iff_getElem?.mp hleader
    have hstored := (hreached.leaders i leader hi).1
    have hfedleader := (hadds.fed leader hstored).resolve_right (fun h => by cases h)
    exact reaches_restrict hcausal hfed' (mem_processed_iff.mpr hfedleader) hreach hpos
  · rw [hcommits, List.map_map, ← hreached.commits.leaders_eq]
    rfl
  · rw [hcommits, List.map_map, List.length_map]
    exact hordered.indices
  · rw [hcommits]
    exact List.pairwise_map.mpr hordered.rounds

/-- **A certified leader is committed.** The blocks of a universe list no reference twice, and each
lists ancestors of the round before by a quorum. Fed such blocks in causal order, in any batching,
a node returns from every call; if a quorum of the fed blocks of a decision round certify the
leader of their wave, then it has decided that wave and all before it, and has sent the leader
as a final commit, with its whole history in that commit or an earlier one. -/
theorem run_commits_certified (sha3 : List UInt8 → BlockDigest) {c : Committee} (U : Universe c)
    (hdistinct : U.Distinct) (hparents : U.QuorumParents) {batches : List (List VerifiedBlock)}
    (hfed : ∀ b ∈ batches.flatten, U.Has b)
    (hcausal : (DagState.new sha3 c).CausalOrder (BlockManager.processed batches)) {w : WaveNumber} (hw : 0 < w)
    {leader : VerifiedBlock} (hleader : leader ∈ batches.flatten) (hslot : leader.slot = leaderSlot c w)
    (hcert : Universe.Backed c (· ∈ batches.flatten) (3 * w + 2) (Certifies c U.block leader.reference)) :
    let o := (ConsensusNode.new sha3 c).run sha3 batches
    (∃ node, o.node = .ok node) ∧ (o.decided.map DecidedLeader.status)[w - 1]? = some (.commit leader) ∧
      CommittedWithHistory U (hardCommits o.events) leader := by
  obtain ⟨vs, node, hnode, hdecided, hcertified, hcommitted, -⟩ := run_reaches hdistinct hparents hfed hcausal
  have hverdict := hcertified w leader hw hleader hslot hcert
  refine ⟨⟨node, hnode⟩, ?_, hcommitted leader (List.mem_of_getElem? hverdict)⟩
  rw [hdecided, label_getElem?, List.getElem?_map, hverdict]
  rfl

/-- The first eight links of a chain: two waves. -/
def eightLinks : List VerifiedBlock := (List.range 8).map link

def twoWaves : Universe (Committee.equal 0) :=
  .ofBlocks .single eightLinks ∅ (by decide +kernel) (by decide +kernel) Committee.single_faults (by decide +kernel)

theorem twoWaves_distinct : twoWaves.Distinct := by
  have hall : ∀ b ∈ eightLinks, b.ancestors.Nodup := by decide +kernel
  exact fun r b hb => hall b (Universe.mem_of_ofBlocks hb)

theorem twoWaves_parents : twoWaves.QuorumParents := by
  have hall : ∀ b ∈ eightLinks, 0 < b.round → (Committee.equal 0).Quorum
      ((b.ancestors.filter fun a => decide (a.round + 1 = b.round)).map BlockRef.author).toFinset := by
    decide +kernel
  exact fun r b hb => hall b (Universe.mem_of_ofBlocks hb)

/-- The sixth link is certified by the eighth, and committed with the two links between it and
the leader before it. -/
theorem run_commits_certified_chain :
    let o := (ConsensusNode.new (fun _ => 0) (Committee.equal 0)).run (fun _ => 0) [eightLinks]
    (hardCommits o.events).map (fun s => s.blocks.map fun b => b.blockRef.round) = [[1, 2, 3], [4, 5, 6]] ∧
      (o.decided.map DecidedLeader.status)[1]? = some (.commit (link 5)) ∧
      CommittedWithHistory twoWaves (hardCommits o.events) (link 5) := by
  refine ⟨by decide +kernel, ?_⟩
  exact (@run_commits_certified (fun _ => 0) _ twoWaves twoWaves_distinct twoWaves_parents [eightLinks]
    (by decide +kernel) (by decide +kernel) 2 (by decide) (link 5) (by decide +kernel) (by decide +kernel)
    ⟨{0}, by decide +kernel, fun i hi => ⟨link 7, by decide +kernel, (Finset.mem_singleton.mp hi).symm,
      by decide +kernel, by decide +kernel⟩⟩).2

/-! ### Supported leaders -/

/-- Where the voting blocks support a leader, a decision block certifies it: its parents of a
quorum of authors are votes. -/
theorem certifies_of_supported {sha3 : List UInt8 → BlockDigest} {c : Committee} {U : Universe c}
    (hparents : U.QuorumParents) {blocks : List VerifiedBlock} (hfed : ∀ b ∈ blocks, U.Has b)
    (hcausal : (DagState.new sha3 c).CausalOrder blocks) {round : Round} (hpos : 0 < round) {leader : BlockRef}
    (hsupport : ∀ v ∈ blocks, v.round = round → v.supports leader = true) {d : VerifiedBlock} (hd : d ∈ blocks)
    (hround : d.round = round + 1) : Certifies c U.block leader d := by
  refine (hparents _ d (hfed d hd) (hround ▸ Nat.succ_pos _)).mono fun i hi => ?_
  rw [List.mem_toFinset, List.mem_map] at hi
  obtain ⟨r, hr, hri⟩ := hi
  rw [List.mem_filter, decide_eq_true_iff, hround] at hr
  have hrr : r.round = round := Nat.succ.inj hr.2
  obtain ⟨v, hv, hvr⟩ := fed_ancestors hcausal hd hr.1 (hrr ▸ hpos)
  have hvround : v.round = round := by rw [← hrr, ← hvr, VerifiedBlock.reference_round]
  refine mem_voters.mpr ⟨r, hr.1, hri, v, ?_, hsupport v hv hvround⟩
  rw [← hvr]
  exact hfed v hv

/-- Every wave up to `W` has a leader among the blocks that all blocks of its voting round support,
and decision blocks of a quorum. -/
structure Supported (c : Committee) (blocks : List VerifiedBlock) (leader : WaveNumber → VerifiedBlock)
    (W : WaveNumber) : Prop where
  leaders : ∀ w, 0 < w → w ≤ W → leader w ∈ blocks ∧ (leader w).slot = leaderSlot c w
  votes : ∀ w, 0 < w → w ≤ W → ∀ v ∈ blocks, v.round = 3 * w + 1 → v.supports (leader w).reference = true
  decisions : ∀ w, 0 < w → w ≤ W → Universe.Backed c (· ∈ blocks) (3 * w + 2) fun _ => True

/-- Only which blocks there are matters. -/
theorem Supported.congr {c : Committee} {blocks blocks' : List VerifiedBlock} {leader : WaveNumber → VerifiedBlock}
    {W : WaveNumber} (h : Supported c blocks leader W) (hmem : ∀ b, b ∈ blocks ↔ b ∈ blocks') :
    Supported c blocks' leader W where
  leaders w hw hle := ⟨(hmem _).mp (h.leaders w hw hle).1, (h.leaders w hw hle).2⟩
  votes w hw hle v hv := h.votes w hw hle v ((hmem v).mpr hv)
  decisions w hw hle := by
    simp only [← hmem]
    exact h.decisions w hw hle

theorem range'_map_getElem {α : Type} {f : WaveNumber → α} {W i : Nat} (hi : i < ((List.range' 1 W).map f).length) :
    i < W ∧ ((List.range' 1 W).map f)[i] = f (i + 1) := by
  rw [List.getElem_map, List.getElem_range', Nat.one_mul, Nat.add_comm]
  rw [List.length_map, List.length_range'] at hi
  exact ⟨hi, rfl⟩

section
variable {sha3 : List UInt8 → BlockDigest} {c : Committee} {U : Universe c}

/-- Supported leaders are certified, so each is the decision of its wave. -/
theorem Supported.certified (hparents : U.QuorumParents) {batches : List (List VerifiedBlock)}
    (hfed : ∀ b ∈ batches.flatten, U.Has b)
    (hcausal : (DagState.new sha3 c).CausalOrder (BlockManager.processed batches)) {W : WaveNumber}
    {leader : WaveNumber → VerifiedBlock} (h : Supported c batches.flatten leader W) {w : WaveNumber} (hw : 0 < w)
    (hle : w ≤ W) :
    Universe.Backed c (· ∈ batches.flatten) (3 * w + 2) (Certifies c U.block (leader w).reference) := by
  obtain ⟨A, hA, hblocks⟩ := h.decisions w hw hle
  refine ⟨A, hA, fun i hi => ?_⟩
  obtain ⟨d, hd, hauthor, hround, -⟩ := hblocks i hi
  refine ⟨d, hd, hauthor, hround, ?_⟩
  exact certifies_of_supported hparents (fun b hb => hfed b (mem_processed_iff.mp hb)) hcausal (Nat.succ_pos _)
    (fun v hv => h.votes w hw hle v (mem_processed_iff.mp hv)) (mem_processed_iff.mpr hd) hround

/-- What a supported run has decided and committed. -/
theorem Supported.run (hdistinct : U.Distinct) (hparents : U.QuorumParents) {batches : List (List VerifiedBlock)}
    (hfed : ∀ b ∈ batches.flatten, U.Has b)
    (hcausal : (DagState.new sha3 c).CausalOrder (BlockManager.processed batches)) {W : WaveNumber}
    {leader : WaveNumber → VerifiedBlock} (h : Supported c batches.flatten leader W) :
    let o := (ConsensusNode.new sha3 c).run sha3 batches
    ∃ (vs : List (Option VerifiedBlock)) (node : ConsensusNode), o.node = .ok node ∧
      o.decided.map DecidedLeader.status = label c 1 (vs.map some) ∧
      (List.range' 1 W).map (fun w => some (leader w)) <+: vs ∧
      (List.range' 1 W).map (fun w => ((leader w).reference, w)) <+:
        (hardCommits o.events).map (fun s => (s.leader, s.commitIndex)) ∧
      (hardCommits o.events).Pairwise fun s s' => s.leader.round < s'.leader.round := by
  intro o
  obtain ⟨vs, node, hnode, hdecided, hcertified, -, hleaders, hindices, hrounds⟩ :=
    run_reaches hdistinct hparents hfed hcausal
  have hfirst : (List.range' 1 W).map (fun w => some (leader w)) <+: vs := by
    refine List.prefix_iff_getElem?.mpr fun i hi => ?_
    obtain ⟨hlt, hget⟩ := range'_map_getElem hi
    have hpos : 0 < i + 1 := Nat.succ_pos i
    obtain ⟨hfedleader, hslot⟩ := h.leaders (i + 1) hpos hlt
    rw [hget]
    exact hcertified (i + 1) _ hpos hfedleader hslot (h.certified hparents hfed hcausal hpos hlt)
  refine ⟨vs, node, hnode, hdecided, hfirst, List.prefix_iff_getElem?.mpr fun i hi => ?_, hrounds⟩
  obtain ⟨hlt, hget⟩ := range'_map_getElem hi
  -- the leaders up to `W` come first among those committed
  obtain ⟨rest, hrest⟩ := hfirst
  have hleader_i : ((hardCommits o.events).map OurCommittedSubDag.leader)[i]? = some (leader (i + 1)).reference := by
    have hcommitted : (vs.filterMap id).map VerifiedBlock.reference =
        (List.range' 1 W).map (fun w => (leader w).reference) ++ (rest.filterMap id).map VerifiedBlock.reference := by
      rw [← hrest, List.filterMap_append, List.filterMap_map, List.map_append]
      exact congrArg (· ++ _) ((congrArg _ (congrFun List.filterMap_eq_map _)).trans (List.map_map ..))
    have hlength : i < ((List.range' 1 W).map fun w => (leader w).reference).length := by
      rw [List.length_map, List.length_range']
      exact hlt
    rw [hleaders, hcommitted, List.getElem?_append_left hlength, List.getElem?_eq_getElem hlength,
      (range'_map_getElem hlength).2]
  rw [List.getElem?_map, Option.map_eq_some_iff] at hleader_i
  obtain ⟨subdag, hsubdag, hreference⟩ := hleader_i
  have hindex : ((hardCommits o.events).map OurCommittedSubDag.commitIndex)[i]? = some (i + 1) := by
    rw [hindices, List.getElem?_range' (List.getElem?_eq_some_iff.mp hsubdag).1, Nat.one_mul, Nat.add_comm]
  rw [List.getElem?_map, hsubdag] at hindex
  have hnumber : subdag.commitIndex = i + 1 := Option.some.inj hindex
  rw [hget, List.getElem?_map, hsubdag, Option.map_some, hreference, hnumber]

end

/-- **With support every wave is committed.** In a run as above, with blocks of quorum parents that
list no reference twice, let every wave up to `W` have a leader that all fed blocks of its voting
round support, and decision blocks of a quorum. Then the node has committed each of these leaders
and skipped none, and the final commit of wave `w` is the one with index `w`. -/
theorem run_commits_every_wave (sha3 : List UInt8 → BlockDigest) {c : Committee} (U : Universe c)
    (hdistinct : U.Distinct) (hparents : U.QuorumParents) {batches : List (List VerifiedBlock)}
    (hfed : ∀ b ∈ batches.flatten, U.Has b)
    (hcausal : (DagState.new sha3 c).CausalOrder (BlockManager.processed batches)) {W : WaveNumber}
    {leader : WaveNumber → VerifiedBlock} (hsupported : Supported c batches.flatten leader W) :
    let o := (ConsensusNode.new sha3 c).run sha3 batches
    (∃ node, o.node = .ok node) ∧
      (List.range' 1 W).map (fun w => .commit (leader w)) <+: o.decided.map DecidedLeader.status ∧
      (List.range' 1 W).map (fun w => ((leader w).reference, w)) <+:
        (hardCommits o.events).map fun s => (s.leader, s.commitIndex) := by
  intro o
  obtain ⟨vs, node, hnode, hdecided, hfirst, hcommits, -⟩ := hsupported.run hdistinct hparents hfed hcausal
  refine ⟨⟨node, hnode⟩, List.prefix_iff_getElem?.mpr fun i hi => ?_, hcommits⟩
  obtain ⟨hlt, hget⟩ := range'_map_getElem hi
  have hverdict : vs[i]? = some (some (leader (i + 1))) := by
    have hlength : i < ((List.range' 1 W).map fun w => some (leader w)).length := by
      rw [List.length_map, List.length_range']
      exact hlt
    rw [List.prefix_iff_getElem?.mp hfirst i hlength, (range'_map_getElem hlength).2]
  rw [hget, hdecided, label_getElem?, List.getElem?_map, hverdict]
  rfl

/-- A leader of the chain is listed by the link after it, and that by the next. -/
theorem twoWaves_supported : Supported (Committee.equal 0) [eightLinks].flatten (fun w => link (3 * w - 1)) 2 := by
  have hwaves : ∀ {w : Nat}, 0 < w → w ≤ 2 → w = 1 ∨ w = 2 := by omega
  refine ⟨fun w hw hle => ?_, fun w hw hle => ?_, fun w hw hle => ?_⟩
  · rcases hwaves hw hle with rfl | rfl <;> decide +kernel
  · rcases hwaves hw hle with rfl | rfl <;> decide +kernel
  · refine ⟨{0}, by decide +kernel, fun i hi => ⟨link (3 * w + 1), ?_, (Finset.mem_singleton.mp hi).symm, ?_, trivial⟩⟩
    · rcases hwaves hw hle with rfl | rfl <;> decide +kernel
    · rcases hwaves hw hle with rfl | rfl <;> decide +kernel

/-- Both waves of the chain are committed. -/
theorem run_commits_every_wave_chain :
    let o := (ConsensusNode.new (fun _ => 0) (Committee.equal 0)).run (fun _ => 0) [eightLinks]
    [.commit (link 2), .commit (link 5)] <+: o.decided.map DecidedLeader.status ∧
      [((link 2).reference, 1), ((link 5).reference, 2)] <+:
        (hardCommits o.events).map fun s => (s.leader, s.commitIndex) :=
  (run_commits_every_wave (fun _ => 0) twoWaves twoWaves_distinct twoWaves_parents (by decide +kernel)
    (by decide +kernel) twoWaves_supported).2

end DualOptimistic.Consensus
