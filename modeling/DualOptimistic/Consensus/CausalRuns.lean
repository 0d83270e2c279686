import DualOptimistic.Consensus.Agreement
import DualOptimistic.Consensus.CommitPath
import DualOptimistic.Consensus.DeliveryOrder

/-! Nodes fed in causal order.

The block manager holds nothing back from such a node, so it commits what its committing half
alone commits on the blocks it accepts. What that half reaches (`Reached`) is then known of the
node itself after every call (`Causal.run`), with its final commits as the sub-dags. -/
namespace DualOptimistic.Consensus
open Data

/-- The final commits among the events. -/
def hardCommits (events : List ConsensusEvent) : List OurCommittedSubDag :=
  events.filterMap fun
    | .softCommit .. => none
    | .hardCommit subdag => some subdag

theorem hardCommits_append (l m : List ConsensusEvent) : hardCommits (l ++ m) = hardCommits l ++ hardCommits m :=
  List.filterMap_append ..

theorem mem_hardCommits {events : List ConsensusEvent} {subdag : OurCommittedSubDag} :
    subdag ∈ hardCommits events ↔ .hardCommit subdag ∈ events := by
  rw [hardCommits, List.mem_filterMap]
  constructor
  · rintro ⟨e, he, hsubdag⟩
    cases e with
    | softCommit round leader txs => cases hsubdag
    | hardCommit other => exact Option.some.inj hsubdag ▸ he
  · exact fun h => ⟨_, h, rfl⟩

theorem hardCommits_countSoftVotes (dag : DagState) (leaderRound : Round) (voter : AuthorityIndex)
    (ancestors : List BlockRef) (t : SoftCommitTracker) :
    hardCommits (dag.countSoftVotes leaderRound voter ancestors t).1 = [] := by
  induction ancestors generalizing t with
  | nil => rfl
  | cons a rest ih =>
    rw [DagState.countSoftVotes]
    split
    · dsimp only
      split
      · exact ih _
      · exact ih _
    · exact ih _

/-- The votes of a call send early commits only. -/
theorem hardCommits_checkSoftCommits (dag : DagState) (blocks : List VerifiedBlock) (t : SoftCommitTracker) :
    hardCommits (dag.checkSoftCommits blocks t).1 = [] := by
  induction blocks generalizing t with
  | nil => rfl
  | cons b rest ih =>
    rw [DagState.checkSoftCommits, hardCommits_append, ih, List.append_nil, DagState.checkSoftCommit]
    split
    · rfl
    · split
      · exact hardCommits_countSoftVotes ..
      · rfl

/-- The node commits as the committing half alone does. -/
theorem commitEach_eq {sha3 : List UInt8 → BlockDigest} {s s' : HardState} {decided : List DecidedLeader}
    {subDags : List CommittedSubDag} (h : s.commitDecided sha3 decided = .ok (subDags, s')) :
    (s.commitEach sha3 decided).2 = .ok s' ∧
      hardCommits ((s.commitEach sha3 decided).1.map Emission.event) = subDags.map toSharedSubdag := by
  refine ⟨commitEach_of_commitDecided h, ?_⟩
  induction decided generalizing s subDags with
  | nil =>
    obtain ⟨rfl, -⟩ := Prod.mk.inj (Except.ok.inj h)
    rfl
  | cons d rest ih =>
    cases d with
    | skip slot => exact ih h
    | commit b direct =>
      rw [HardState.commitDecided] at h
      obtain ⟨⟨subDag, dag⟩, hcommit, h⟩ := except_bind_ok_iff.mp h
      obtain ⟨⟨more, last⟩, hrest, h⟩ := except_bind_ok_iff.mp h
      obtain ⟨rfl, rfl⟩ := Prod.mk.inj (Except.ok.inj h)
      rw [HardState.commitEach, hcommit]
      exact congrArg (toSharedSubdag subDag :: ·) (ih hrest)

/-- A call that decides and commits returns. -/
theorem acceptBlocks_returns {sha3 : List UInt8 → BlockDigest} {node : ConsensusNode} {batch : List VerifiedBlock}
    {decided : List DecidedLeader} {new : List CommittedSubDag} {s : HardState}
    (hdecide : (node.manager.tryAcceptBlocks batch).manager.dagState.tryDecide (UniversalCommitterBuilder.build {})
      node.lastDecided = .ok decided)
    (hcommit : HardState.commitDecided sha3
      ⟨(node.manager.tryAcceptBlocks batch).manager.dagState, node.lastDecided⟩ decided = .ok (new, s)) :
    let o := node.acceptBlocks sha3 batch
    o.decided = decided ∧ hardCommits o.events = new.map toSharedSubdag ∧ ∃ next, o.node = .ok next ∧
      next.manager = { (node.manager.tryAcceptBlocks batch).manager with dagState := s.dag } ∧
      next.lastDecided = s.lastDecided := by
  obtain ⟨hafter, hcommits⟩ := commitEach_eq hcommit
  unfold ConsensusNode.acceptBlocks ConsensusNode.tryHardCommit
  dsimp only
  rw [hdecide]
  dsimp only
  rw [hafter]
  refine ⟨rfl, ?_, _, rfl, rfl, rfl⟩
  have hsoft : ∀ (dag : DagState) (events : List ConsensusEvent),
      (events.map (Emission.mk dag)).map Emission.event = events := by
    intro dag events
    rw [List.map_map]
    exact List.map_id _
  rw [NodeOutcome.events, List.map_append, hardCommits_append, hsoft, hardCommits_checkSoftCommits, List.nil_append]
  exact hcommits

section
variable {sha3 : List UInt8 → BlockDigest} {c : Committee} {U : Universe c}

/-- A node fed in causal order: nothing waits, and its committing half has come as far as these
verdicts and sub-dags. -/
structure Causal (sha3 : List UInt8 → BlockDigest) {c : Committee} (U : Universe c) (node : ConsensusNode)
    (verdicts : List (Option VerifiedBlock)) (subDags : List CommittedSubDag) : Prop where
  registered : node.manager.Registered
  idle : node.manager.Idle
  reached : Reached sha3 U ⟨node.manager.dagState, node.lastDecided⟩ verdicts subDags

theorem causal_new (sha3 : List UInt8 → BlockDigest) (U : Universe c) : Causal sha3 U (.new sha3 c) [] [] where
  registered := BlockManager.registered_new _
  idle _ := rfl
  reached := Reached.new sha3 U

/-- A stored block above genesis is one behind a stored reference. -/
theorem Universe.Drawn.stores_iff {dag : DagState} (h : U.Drawn dag) {b : VerifiedBlock} (hb : U.Has b)
    (hpos : 0 < b.round) : dag.Stores b ↔ dag.containsBlock b.reference = true := by
  constructor
  · intro hstored
    exact DagState.containsBlock_of_getBlock (DagState.getBlock_of_blocks hstored)
  · intro hcontains
    obtain ⟨x, hx⟩ := DagState.containsBlock_iff.mp hcontains
    have hstored : dag.Stores x := Universe.stores_of_getBlock (DagState.getBlock_reference hx ▸ hpos)
      (DagState.getBlock_reference hx ▸ hx)
    rwa [(h.has hstored).eq hb (DagState.getBlock_reference hx)] at hstored

/-- What calls add to a node that has come as far as these verdicts and sub-dags. -/
structure Adds (sha3 : List UInt8 → BlockDigest) (U : Universe c) (before : ConsensusNode)
    (verdicts : List (Option VerifiedBlock)) (subDags : List CommittedSubDag) (blocks : List VerifiedBlock)
    (o : NodeOutcome) (vs : List (Option VerifiedBlock)) (new : List CommittedSubDag) (after : ConsensusNode) :
    Prop where
  node : o.node = .ok after
  decided : o.decided.map DecidedLeader.status = label c (verdicts.length + 1) (vs.map some)
  commits : hardCommits o.events = new.map toSharedSubdag
  causal : Causal sha3 U after (verdicts ++ vs) (subDags ++ new)
  kept : ∀ b, before.manager.dagState.Stores b → after.manager.dagState.Stores b
  stored : ∀ b ∈ blocks, 0 < b.round → after.manager.dagState.Stores b
  fed : ∀ b, after.manager.dagState.Stores b → b ∈ blocks ∨ before.manager.dagState.Stores b

/-- **One call.** -/
theorem Causal.acceptBlocks (hlinks : U.LinksDistinct) {node : ConsensusNode}
    {verdicts : List (Option VerifiedBlock)} {subDags : List CommittedSubDag}
    (h : Causal sha3 U node verdicts subDags) {batch : List VerifiedBlock} (hbatch : ∀ b ∈ batch, U.Has b)
    (hcausal : node.manager.dagState.CausalOrder (BlockManager.sortByRound batch)) :
    ∃ vs new next, Adds sha3 U node verdicts subDags batch (node.acceptBlocks sha3 batch) vs new next ∧
      ∀ l, (node.manager.dagState.acceptBlocks (BlockManager.sortByRound batch)).CausalOrder l →
        next.manager.dagState.CausalOrder l := by
  obtain ⟨horder, hidle, hcontains⟩ := h.idle.acceptEach h.registered hcausal
  have hdag : node.manager.dagState.acceptBlocks (node.manager.acceptEach (BlockManager.sortByRound batch)).accepted =
      (node.manager.tryAcceptBlocks batch).manager.dagState := (node.manager.tryAcceptBlocks_dagState batch).symm
  have hkept := h.registered.acceptEach (BlockManager.sortByRound batch)
  have hwaiting : node.manager.SuspendedAll fun b => b ∈ batch := by
    intro k s hs
    rw [h.idle k] at hs
    cases hs
  have haccepted := (hwaiting.tryAcceptBlocks h.registered fun _ hb => hb).1
  have hhas : ∀ b ∈ (node.manager.acceptEach (BlockManager.sortByRound batch)).accepted, U.Has b :=
    fun b hb => hbatch b (haccepted b hb)
  obtain ⟨hdrawn, haccepts⟩ := h.reached.drawn.acceptBlocks hhas horder
  obtain ⟨o, vs, hfeed, hlabel, hreached, hstores, hlater⟩ := h.reached.feed hlinks hhas horder
  rw [HardState.feed, HardState.tryHardCommit] at hfeed
  obtain ⟨decided, hdecide, hfeed⟩ := except_bind_ok_iff.mp hfeed
  obtain ⟨⟨new, s⟩, hcommit, hfeed⟩ := except_bind_ok_iff.mp hfeed
  obtain rfl := Except.ok.inj hfeed
  dsimp only at hlabel hreached hstores hlater hdrawn
  -- the call decides and commits what the committing half does on the accepted blocks
  rw [hdag] at hdecide hcommit hlater hdrawn
  obtain ⟨hdecided, hcommits, next, hnext, hmanager, hlast⟩ := acceptBlocks_returns hdecide hcommit
  refine ⟨vs, new, next, ⟨hnext, ?_, hcommits, ⟨?_, ?_, ?_⟩, ?_, ?_, ?_⟩, ?_⟩
  · rw [hdecided]
    exact hlabel
  · rw [hmanager]
    exact ⟨hkept.keyed, hkept.waits, hkept.ancestor, hkept.indexed⟩
  · rw [hmanager]
    exact hidle
  · rw [hmanager, hlast]
    exact hreached
  · intro b hb
    rw [hmanager]
    exact (hstores b).mpr (.inr hb)
  · intro b hb hpos
    have hcontained : (node.manager.tryAcceptBlocks batch).manager.dagState.containsBlock b.reference = true := by
      rw [BlockManager.tryAcceptBlocks, ← hcontains, DagState.containsBlock_acceptBlocks, List.mem_map]
      exact .inl ⟨b, (List.mem_insertionSort _).mpr hb, rfl⟩
    have hstored := (hdrawn.stores_iff (hbatch b hb) hpos).mpr hcontained
    rw [hmanager]
    rw [← hdag] at hstored
    exact (hstores b).mpr ((haccepts b).mp hstored)
  · intro b hb
    rw [hmanager] at hb
    exact ((hstores b).mp hb).imp_left (haccepted b)
  · intro l hl
    rw [hmanager]
    exact hlater l (hl.congr hcontains)

theorem Adds.nil {node : ConsensusNode} {verdicts : List (Option VerifiedBlock)} {subDags : List CommittedSubDag}
    (h : Causal sha3 U node verdicts subDags) :
    Adds sha3 U node verdicts subDags [] ⟨[], [], [], .ok node⟩ [] [] node where
  node := rfl
  decided := rfl
  commits := rfl
  causal := by
    rw [List.append_nil, List.append_nil]
    exact h
  kept _ hb := hb
  stored _ hb := absurd hb List.not_mem_nil
  fed _ hb := .inr hb

theorem Adds.append {node mid last : ConsensusNode} {verdicts vs vs' : List (Option VerifiedBlock)}
    {subDags new new' : List CommittedSubDag} {blocks blocks' : List VerifiedBlock} {o o' : NodeOutcome}
    (h : Adds sha3 U node verdicts subDags blocks o vs new mid)
    (h' : Adds sha3 U mid (verdicts ++ vs) (subDags ++ new) blocks' o' vs' new' last) :
    Adds sha3 U node verdicts subDags (blocks ++ blocks')
      ⟨o.accepted ++ o'.accepted, o.decided ++ o'.decided, o.sent ++ o'.sent, o'.node⟩ (vs ++ vs') (new ++ new')
      last where
  node := h'.node
  decided := by
    rw [List.map_append, h.decided, h'.decided, List.map_append, label_append, List.length_map, List.length_append,
      Nat.add_right_comm]
  commits := by
    rw [NodeOutcome.events, List.map_append, hardCommits_append, List.map_append]
    exact congrArg₂ (· ++ ·) h.commits h'.commits
  causal := by
    rw [← List.append_assoc, ← List.append_assoc]
    exact h'.causal
  kept b hb := h'.kept b (h.kept b hb)
  stored b hb hpos := by
    rcases List.mem_append.mp hb with hb | hb
    · exact h'.kept b (h.stored b hb hpos)
    · exact h'.stored b hb hpos
  fed b hb := by
    rcases h'.fed b hb with hb | hb
    · exact .inl (List.mem_append_right _ hb)
    · exact (h.fed b hb).imp_left (List.mem_append_left _)

/-- **A whole run**, call by call. -/
theorem Causal.run (hlinks : U.LinksDistinct) {node : ConsensusNode} {verdicts : List (Option VerifiedBlock)}
    {subDags : List CommittedSubDag} (h : Causal sha3 U node verdicts subDags) {batches : List (List VerifiedBlock)}
    (hbatches : ∀ b ∈ batches.flatten, U.Has b)
    (hcausal : node.manager.dagState.CausalOrder (BlockManager.processed batches)) :
    ∃ vs new last, Adds sha3 U node verdicts subDags batches.flatten (node.run sha3 batches) vs new last := by
  induction batches generalizing node verdicts subDags with
  | nil => exact ⟨[], [], node, .nil h⟩
  | cons batch rest ih =>
    rw [List.flatten_cons] at hbatches
    obtain ⟨hfirst, hlater⟩ := hcausal.split
    obtain ⟨vs, new, next, hadds, horder⟩ :=
      h.acceptBlocks hlinks (fun b hb => hbatches b (List.mem_append_left _ hb)) hfirst
    obtain ⟨vs', new', last, hadds'⟩ :=
      ih hadds.causal (fun b hb => hbatches b (List.mem_append_right _ hb)) (horder _ hlater)
    refine ⟨vs ++ vs', new ++ new', last, ?_⟩
    rw [List.flatten_cons, ConsensusNode.run]
    dsimp only
    rw [hadds.node]
    exact hadds.append hadds'

/-! ### Agreement of nodes -/

theorem mem_processed_iff {batches : List (List VerifiedBlock)} {b : VerifiedBlock} :
    b ∈ BlockManager.processed batches ↔ b ∈ batches.flatten := by
  rw [BlockManager.mem_processed, List.mem_flatten]

/-- The universe of what either of two nodes was fed is closed. -/
theorem fed_union_closed {batches batches' : List (List VerifiedBlock)}
    [DecidablePred (· ∈ fedRefs (BlockManager.processed batches) ∪ fedRefs (BlockManager.processed batches'))]
    (hfed : ∀ b ∈ batches.flatten, U.Has b) (hfed' : ∀ b ∈ batches'.flatten, U.Has b)
    (hcausal : (DagState.new sha3 c).CausalOrder (BlockManager.processed batches))
    (hcausal' : (DagState.new sha3 c).CausalOrder (BlockManager.processed batches')) :
    (U.restrict (fedRefs (BlockManager.processed batches) ∪ fedRefs (BlockManager.processed batches'))).Closed := by
  refine @restrict_closed sha3 c U _ _ fun r hr => ?_
  rcases hr with hr | hr
  · exact ⟨_, fun b hb => hfed b (mem_processed_iff.mp hb), hcausal, hr, Set.subset_union_left⟩
  · exact ⟨_, fun b hb => hfed' b (mem_processed_iff.mp hb), hcausal', hr, Set.subset_union_right⟩

open Classical in
/-- **Nodes agree.** Two nodes fed from one universe in causal order send final commits of which
one is a first part of the other, and the same ones if they were fed the same blocks. -/
theorem commits_agree (hdistinct : U.Distinct) (hparents : U.QuorumParents)
    {batches batches' : List (List VerifiedBlock)} (hfed : ∀ b ∈ batches.flatten, U.Has b)
    (hfed' : ∀ b ∈ batches'.flatten, U.Has b)
    (hcausal : (DagState.new sha3 c).CausalOrder (BlockManager.processed batches))
    (hcausal' : (DagState.new sha3 c).CausalOrder (BlockManager.processed batches')) :
    let commits := hardCommits ((ConsensusNode.new sha3 c).run sha3 batches).events
    let commits' := hardCommits ((ConsensusNode.new sha3 c).run sha3 batches').events
    (commits <+: commits' ∨ commits' <+: commits) ∧
      ((∀ b, b ∈ batches.flatten ↔ b ∈ batches'.flatten) → (∀ b ∈ batches.flatten, 0 < b.round) →
        commits = commits') := by
  intro commits commits'
  let S := fedRefs (BlockManager.processed batches) ∪ fedRefs (BlockManager.processed batches')
  have hclosed : (U.restrict S).Closed := fed_union_closed hfed hfed' hcausal hcausal'
  obtain ⟨vs, new, node, hadds⟩ := (causal_new sha3 (U.restrict S)).run hdistinct.restrict.linksDistinct
    (fun b hb => Universe.restrict_has.mpr ⟨.inl ⟨b, mem_processed_iff.mpr hb, rfl⟩, hfed b hb⟩) hcausal
  obtain ⟨vs', new', node', hadds'⟩ := (causal_new sha3 (U.restrict S)).run hdistinct.restrict.linksDistinct
    (fun b hb => Universe.restrict_has.mpr ⟨.inr ⟨b, mem_processed_iff.mpr hb, rfl⟩, hfed' b hb⟩) hcausal'
  have hreached := hadds.causal.reached
  have hreached' := hadds'.causal.reached
  rw [List.nil_append, List.nil_append] at hreached hreached'
  have hcommits : commits = new.map toSharedSubdag := hadds.commits
  have hcommits' : commits' = new'.map toSharedSubdag := hadds'.commits
  rw [hcommits, hcommits']
  refine ⟨?_, fun hsame hpos => ?_⟩
  · rcases hreached.verdicts_isPrefix hclosed hparents.restrict hreached' with hle | hle
    · exact .inl ((hreached.subDags_isPrefix hreached' hle).map _)
    · exact .inr ((hreached'.subDags_isPrefix hreached hle).map _)
  · have hstored : ∀ b, node.manager.dagState.Stores b ↔ node'.manager.dagState.Stores b := by
      intro b
      constructor
      · intro hb
        have hb := (hadds.fed b hb).resolve_right fun h => (by cases h)
        exact hadds'.stored b ((hsame b).mp hb) (hpos b hb)
      · intro hb
        have hb := (hsame b).mpr ((hadds'.fed b hb).resolve_right fun h => (by cases h))
        exact hadds.stored b hb (hpos b hb)
    have hlen := hreached.length_le hclosed hparents.restrict hreached' fun b => (hstored b).mp
    have hlen' := hreached'.length_le hclosed hparents.restrict hreached fun b => (hstored b).mpr
    obtain rfl : vs = vs' := by
      rcases hreached.verdicts_isPrefix hclosed hparents.restrict hreached' with hle | hle
      · exact hle.eq_of_length_le hlen'
      · exact (hle.eq_of_length_le hlen).symm
    have hle := hreached.subDags_isPrefix hreached' (List.prefix_refl vs)
    have hge := hreached'.subDags_isPrefix hreached (List.prefix_refl vs)
    rw [hle.eq_of_length_le hge.length_le]

end

end DualOptimistic.Consensus
