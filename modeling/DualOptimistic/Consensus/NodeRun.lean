import DualOptimistic.Consensus.EarlyVotes
import DualOptimistic.Consensus.Elections
import DualOptimistic.Consensus.View

/-! Runs of the node, whatever it is fed.

Nothing is assumed of the blocks here, and a call may panic; what was sent up to then is on
the log. The log says of an early commit what its leader would have committed at that
moment, of a sub-dag what its leader did commit and under which number, and which leaders
were sent early: those with a quorum of votes, and, where blocks list lower rounds only,
every leader that is committed later (`NodeLog`). Every run keeps such a log
(`run_log`). -/
namespace DualOptimistic.Consensus
open Data

/-! ### Votes behind a commit -/

/-- An elected leader has a quorum of votes among the stored blocks. -/
theorem DagState.Elected.voted {dag : DagState} {w : Nat} {b : VerifiedBlock} (h : dag.Elected w b)
    (hlower : ∀ {r x}, dag.getBlock r = some x → ∀ a ∈ x.ancestors, a.round < x.round) :
    ∃ A, dag.committee.Quorum A ∧
      ∀ i ∈ A, ∃ v, dag.Stores v ∧ v.author = i ∧ v.round = 3 * w + 1 ∧ b.reference ∈ v.ancestors := by
  obtain ⟨⟨-, hslot, -⟩, d, hd, hdround, A, hA, hvotes⟩ := h
  have hbround : b.round = 3 * w := congrArg Slot.round hslot
  refine ⟨A, hA, fun i hi => ?_⟩
  obtain ⟨r, hr, hri, hvote⟩ := hvotes i hi
  unfold refIsVote at hvote
  cases hget : dag.getBlock r with
  | none =>
    rw [hget] at hvote
    dsimp only at hvote
    split_ifs at hvote
    cases hvote
  | some v =>
    rw [hget] at hvote
    have hvr : v.reference = r := getBlock_reference hget
    have hvround : v.round = r.round := by rw [← hvr, VerifiedBlock.reference_round]
    have hbelow : v.round < 3 * w + 2 := hvround ▸ (hlower hd r hr).trans_le hdround
    have hle : v.round ≤ b.round + 1 := by
      rw [hbround]
      exact Nat.le_of_lt_succ hbelow
    have hsupports : v.supports b.reference = true :=
      Except.ok.inj ((isVote_eq (hlower hget) hle).symm.trans hvote)
    have hlisted := VerifiedBlock.supports_mem hsupports
    have habove : 3 * w < v.round := hbround ▸ hlower hget _ hlisted
    have hpos : 0 < r.round := hvround ▸ Nat.zero_lt_of_lt habove
    refine ⟨v, Universe.stores_of_getBlock hpos hget, ?_, ?_, hlisted⟩
    · rw [← hri, ← hvr, VerifiedBlock.reference_author]
    · exact Nat.le_antisymm (Nat.le_of_lt_succ hbelow) habove

/-! ### The log -/

/-- The leaders of the early commits that were sent. -/
def softLeaders (sent : List Emission) : List BlockRef :=
  sent.filterMap fun e => match e.event with
    | .softCommit _ leader _ => some leader
    | .hardCommit _ => none

theorem mem_softLeaders {sent : List Emission} {leader : BlockRef} :
    leader ∈ softLeaders sent ↔ ∃ e ∈ sent, ∃ round txs, e.event = .softCommit round leader txs := by
  rw [softLeaders, List.mem_filterMap]
  refine exists_congr fun e => and_congr_right fun _ => ?_
  cases e.event with
  | softCommit round other txs => simp
  | hardCommit subdag => simp

theorem softLeaders_append (sent sent' : List Emission) :
    softLeaders (sent ++ sent') = softLeaders sent ++ softLeaders sent' :=
  List.filterMap_append ..

theorem softLeaders_soft (dag : DagState) (leaders : List BlockRef) :
    softLeaders (leaders.map fun leader => ⟨dag, dag.softEvent leader⟩) = leaders := by
  rw [softLeaders, List.filterMap_map]
  exact List.filterMap_some

/-- Every committed leader was sent early before. -/
def SoftFirst (sent : List Emission) : Prop :=
  ∀ before e after subdag, sent = before ++ e :: after → e.event = .hardCommit subdag →
    subdag.leader ∈ softLeaders before

theorem SoftFirst.append {sent new : List Emission} (h : SoftFirst sent)
    (hnew : ∀ e ∈ new, ∀ subdag, e.event = .hardCommit subdag → subdag.leader ∈ softLeaders sent) :
    SoftFirst (sent ++ new) := by
  intro before e after subdag hsplit hevent
  have hlater : ∀ rest, new = rest ++ e :: after → subdag.leader ∈ softLeaders (sent ++ rest) := by
    intro rest hrest
    have he : e ∈ new := by
      rw [hrest]
      exact List.mem_append_right _ (List.mem_cons_self ..)
    rw [softLeaders_append]
    exact List.mem_append_left _ (hnew e he subdag hevent)
  rcases List.append_eq_append_iff.mp hsplit with ⟨rest, hbefore, hrest⟩ | ⟨tail, hfirst, hcons⟩
  · rw [hbefore]
    exact hlater rest hrest
  · cases tail with
    | nil =>
      rw [List.append_nil] at hfirst
      have := hlater [] hcons.symm
      rwa [List.append_nil, hfirst] at this
    | cons x tail =>
      obtain ⟨rfl, -⟩ := List.cons.inj hcons
      exact h before e tail subdag hfirst hevent

/-- What an event says of the DAG it was sent from. -/
def Emission.Reads (e : Emission) : Prop :=
  match e.event with
  | .softCommit round leader txs => round = leader.round ∧ txs = e.dag.causalTxs leader
  | .hardCommit subdag =>
    e.dag.containsBlock subdag.leader = true ∧ subdag.leader ∉ e.dag.committed ∧
      subdag.blocks = (sortSubDagBlocks (e.dag.causalBlocks subdag.leader)).map toSharedBlock

/-- The leader of the sub-dag was the verdict on its wave, and the number counts the
committed leaders up to it. -/
def Numbered (c : Committee) (verdicts : List (Option VerifiedBlock)) (subdag : OurCommittedSubDag) : Prop :=
  ∃ i b, verdicts[i]? = some (some b) ∧ subdag.leader = b.reference ∧ b.slot = leaderSlot c (i + 1) ∧
    subdag.commitIndex = ((verdicts.take i).filterMap id).length + 1

theorem Numbered.append {c : Committee} {verdicts : List (Option VerifiedBlock)} {subdag : OurCommittedSubDag}
    (h : Numbered c verdicts subdag) (vs : List (Option VerifiedBlock)) :
    Numbered c (verdicts ++ vs) subdag := by
  obtain ⟨i, b, hb, hleader, hslot, hindex⟩ := h
  have hi : i < verdicts.length := (List.getElem?_eq_some_iff.mp hb).1
  refine ⟨i, b, ?_, hleader, hslot, ?_⟩
  · rwa [List.getElem?_append_left hi]
  · rwa [List.take_append_of_le_length hi.le]

/-- What is known of everything a node has sent. -/
structure NodeLog (c : Committee) (accepted : List VerifiedBlock) (verdicts : List (Option VerifiedBlock))
    (sent : List Emission) : Prop where
  reads : ∀ e ∈ sent, e.Reads
  grows : sent.Pairwise fun e e' => e.dag.committed ⊆ e'.dag.committed
  numbered : ∀ e ∈ sent, ∀ subdag, e.event = .hardCommit subdag → Numbered c verdicts subdag
  once : (softLeaders sent).Nodup
  quorums : ∀ leader, leader ∈ softLeaders sent ↔
    c.Quorum (SoftCommitTracker.votersOf (castVotes c accepted) leader)
  early : (∀ b ∈ accepted, ∀ a ∈ b.ancestors, a.round < b.round) → SoftFirst sent

/-- The committing half of a node that has kept its log. -/
structure HardLog (c : Committee) (accepted : List VerifiedBlock) (verdicts : List (Option VerifiedBlock))
    (sent : List Emission) (s : HardState) : Prop where
  committee : s.dag.committee = c
  stored : ∀ b, s.dag.Stores b → b ∈ accepted
  genesis : ∀ r b, s.dag.genesis.map.get? r = some b → b.ancestors = []
  highest : s.dag.highestAcceptedRound < u32Size
  lastDecided : s.lastDecided = leaderSlot c verdicts.length
  index : s.dag.lastCommitIndex = (verdicts.filterMap id).length
  grown : ∀ e ∈ sent, e.dag.committed ⊆ s.dag.committed

/-- A node that has kept its log. -/
structure Logged (c : Committee) (accepted : List VerifiedBlock) (verdicts : List (Option VerifiedBlock))
    (sent : List Emission) (node : ConsensusNode) : Prop where
  registered : node.manager.Registered
  tallies : node.softCommit.Tallies c (castVotes c accepted)
  fired : ∀ leader, leader ∈ node.softCommit.softCommitted ↔ leader ∈ softLeaders sent
  hard : HardLog c accepted verdicts sent ⟨node.manager.dagState, node.lastDecided⟩

/-! ### The early half of a call -/

theorem HardLog.acceptBlocks {c : Committee} {accepted : List VerifiedBlock}
    {verdicts : List (Option VerifiedBlock)} {sent : List Emission} {s : HardState}
    (h : HardLog c accepted verdicts sent s) (blocks : List VerifiedBlock) :
    HardLog c (accepted ++ blocks) verdicts sent ⟨s.dag.acceptBlocks blocks, s.lastDecided⟩ := by
  induction blocks generalizing accepted s with
  | nil =>
    rw [List.append_nil]
    exact h
  | cons b rest ih =>
    have hstep : HardLog c (accepted ++ [b]) verdicts sent ⟨s.dag.acceptBlock b, s.lastDecided⟩ := by
      refine ⟨h.committee, fun x hx => ?_, h.genesis, DagState.highest_acceptBlock h.highest b, h.lastDecided,
        h.index, h.grown⟩
      have hx' : (s.dag.acceptBlock b).Stores x := hx
      rw [Universe.stores_acceptBlock] at hx'
      split_ifs at hx'
      · exact List.mem_append_right _ (List.mem_singleton.mpr hx'.symm)
      · exact List.mem_append_left _ (h.stored x hx')
    have := ih hstep
    rwa [List.append_assoc] at this

/-- The block manager does not touch the rest of the log. -/
theorem Logged.accepted {c : Committee} {accepted : List VerifiedBlock} {verdicts : List (Option VerifiedBlock)}
    {sent : List Emission} {node : ConsensusNode} (h : Logged c accepted verdicts sent node)
    (batch : List VerifiedBlock) :
    let o := node.manager.tryAcceptBlocks batch
    HardLog c (accepted ++ o.accepted) verdicts sent ⟨o.manager.dagState, node.lastDecided⟩ := by
  intro o
  rw [show o.manager.dagState = _ from node.manager.tryAcceptBlocks_dagState batch]
  exact h.hard.acceptBlocks o.accepted

/-- Early commits for new leaders with a quorum of votes, all sent from one DAG, go on the log. -/
theorem NodeLog.sendEarly {c : Committee} {accepted accepted' : List VerifiedBlock}
    {verdicts : List (Option VerifiedBlock)} {sent : List Emission} (h : NodeLog c accepted verdicts sent)
    {dag : DagState} {leaders : List BlockRef} (hsub : ∀ b ∈ accepted, b ∈ accepted')
    (hgrown : ∀ e ∈ sent, e.dag.committed ⊆ dag.committed) (hnodup : leaders.Nodup)
    (hnew : ∀ leader ∈ leaders, leader ∉ softLeaders sent)
    (hquorums : ∀ leader, leader ∈ softLeaders sent ∨ leader ∈ leaders ↔
      c.Quorum (SoftCommitTracker.votersOf (castVotes c accepted') leader)) :
    NodeLog c accepted' verdicts (sent ++ leaders.map fun leader => ⟨dag, dag.softEvent leader⟩) := by
  have hearly : ∀ e ∈ leaders.map (fun leader => Emission.mk dag (dag.softEvent leader)),
      e.dag = dag ∧ ∃ leader, e.event = dag.softEvent leader := by
    intro e he
    obtain ⟨leader, -, rfl⟩ := List.mem_map.mp he
    exact ⟨rfl, leader, rfl⟩
  have hnever : ∀ e ∈ leaders.map (fun leader => Emission.mk dag (dag.softEvent leader)),
      ∀ subdag, e.event ≠ .hardCommit subdag := by
    intro e he subdag hevent
    obtain ⟨-, leader, hsoft⟩ := hearly e he
    rw [hsoft] at hevent
    cases hevent
  refine ⟨fun e he => ?_, ?_, fun e he subdag hevent => ?_, ?_, fun leader => ?_, fun hlower => ?_⟩
  · rcases List.mem_append.mp he with he | he
    · exact h.reads e he
    · obtain ⟨hfrom, leader, hevent⟩ := hearly e he
      rw [Emission.Reads, hevent, hfrom]
      exact ⟨rfl, rfl⟩
  · refine List.pairwise_append.mpr ⟨h.grows, ?_, fun e he e' he' => ?_⟩
    · rw [List.pairwise_map]
      exact List.pairwise_of_forall fun _ _ => Finset.Subset.refl _
    · rw [(hearly e' he').1]
      exact hgrown e he
  · rcases List.mem_append.mp he with he | he
    · exact h.numbered e he subdag hevent
    · exact absurd hevent (hnever e he subdag)
  · rw [softLeaders_append, softLeaders_soft]
    exact List.nodup_append.mpr ⟨h.once, hnodup, fun l hl l' hl' heq => hnew l' hl' (heq ▸ hl)⟩
  · rw [softLeaders_append, softLeaders_soft, List.mem_append]
    exact hquorums leader
  · refine (h.early fun b hb => hlower b (hsub b hb)).append fun e he subdag hevent => ?_
    exact absurd hevent (hnever e he subdag)

/-- **The early half of a call** keeps the log. -/
theorem Logged.check {c : Committee} {accepted : List VerifiedBlock} {verdicts : List (Option VerifiedBlock)}
    {sent : List Emission} (h : NodeLog c accepted verdicts sent) {node : ConsensusNode}
    (hnode : Logged c accepted verdicts sent node) (batch : List VerifiedBlock) :
    let o := node.manager.tryAcceptBlocks batch
    let soft := o.manager.dagState.checkSoftCommits o.accepted node.softCommit
    let sent' := sent ++ soft.1.map (Emission.mk o.manager.dagState)
    NodeLog c (accepted ++ o.accepted) verdicts sent' ∧
      Logged c (accepted ++ o.accepted) verdicts sent' ⟨o.manager, soft.2, node.lastDecided⟩ := by
  intro o soft sent'
  have hhard := hnode.accepted batch
  have hcommittee : o.manager.dagState.committee = c := hhard.committee
  have hold := hnode.tallies
  rw [← hcommittee] at hold
  obtain ⟨⟨leaders, hevents, hnodup, hsub, hmem⟩, htallies⟩ :=
    o.manager.dagState.checkSoftCommits_spec o.accepted hold
  have hcast : castVotes c accepted ++ castVotes c o.accepted = castVotes c (accepted ++ o.accepted) :=
    (List.flatMap_append ..).symm
  rw [hcommittee, hcast] at htallies
  have hsent : sent' = sent ++ leaders.map fun leader => ⟨o.manager.dagState, o.manager.dagState.softEvent leader⟩ := by
    show sent ++ (o.manager.dagState.checkSoftCommits o.accepted node.softCommit).1.map _ = _
    rw [hevents, List.map_map]
    rfl
  have hfired : ∀ leader, leader ∈ soft.2.softCommitted ↔ leader ∈ softLeaders sent ∨ leader ∈ leaders := by
    intro leader
    rw [hmem, ← hnode.fired]
    constructor
    · intro hin
      by_cases hbefore : leader ∈ node.softCommit.softCommitted
      · exact .inl hbefore
      · exact .inr ⟨hin, hbefore⟩
    · intro hin
      rcases hin with hbefore | hafter
      · exact hsub hbefore
      · exact hafter.1
  refine ⟨?_, hnode.registered.acceptEach _, htallies, fun leader => ?_, hhard.committee, hhard.stored, hhard.genesis,
    hhard.highest, hhard.lastDecided, hhard.index, fun e he => ?_⟩
  · rw [hsent]
    refine h.sendEarly (fun b hb => List.mem_append_left _ hb) hhard.grown hnodup (fun l hl => ?_) fun leader => ?_
    · exact fun hbefore => ((hmem l).mp hl).2 ((hnode.fired l).mpr hbefore)
    · rw [← hfired]
      exact htallies.fired leader
  · rw [hsent, softLeaders_append, softLeaders_soft, List.mem_append]
    exact hfired leader
  · rw [hsent] at he
    rcases List.mem_append.mp he with he | he
    · exact hhard.grown e he
    · obtain ⟨leader, -, rfl⟩ := List.mem_map.mp he
      exact Finset.Subset.refl _

/-! ### The committing half of a call -/

/-- The same blocks, and at least the same committed. -/
structure DagState.Advances (dag dag' : DagState) : Prop where
  committee : dag'.committee = dag.committee
  genesis : dag'.genesis = dag.genesis
  blocks : dag'.blocks = dag.blocks
  highest : dag'.highestAcceptedRound = dag.highestAcceptedRound
  committed : dag.committed ⊆ dag'.committed

namespace DagState
variable {dag dag' dag'' : DagState}

theorem Advances.refl (dag : DagState) : dag.Advances dag := ⟨rfl, rfl, rfl, rfl, Finset.Subset.refl _⟩

theorem Advances.trans (h : dag.Advances dag') (h' : dag'.Advances dag'') : dag.Advances dag'' where
  committee := h'.committee.trans h.committee
  genesis := h'.genesis.trans h.genesis
  blocks := h'.blocks.trans h.blocks
  highest := h'.highest.trans h.highest
  committed := h.committed.trans h'.committed

theorem Advances.stores_iff (h : dag.Advances dag') {b : VerifiedBlock} : dag'.Stores b ↔ dag.Stores b := by
  rw [Stores, Stores, h.blocks]

end DagState

/-- One sub-dag of a list of verdicts, numbered after `index`. -/
def NumberedFrom (index : CommitIndex) (verdicts : List (Option VerifiedBlock)) (e : Emission) : Prop :=
  ∃ subdag i b, e.event = .hardCommit subdag ∧ verdicts[i]? = some (some b) ∧ subdag.leader = b.reference ∧
    subdag.commitIndex = index + ((verdicts.take i).filterMap id).length + 1

theorem NumberedFrom.skip {index : CommitIndex} {verdicts : List (Option VerifiedBlock)} {e : Emission}
    (h : NumberedFrom index verdicts e) : NumberedFrom index (none :: verdicts) e := by
  obtain ⟨subdag, i, b, hevent, hb, hrest⟩ := h
  exact ⟨subdag, i + 1, b, hevent, hb, hrest⟩

theorem NumberedFrom.cons {index : CommitIndex} {verdicts : List (Option VerifiedBlock)} {e : Emission}
    (h : NumberedFrom (index + 1) verdicts e) (leader : VerifiedBlock) :
    NumberedFrom index (some leader :: verdicts) e := by
  obtain ⟨subdag, i, b, hevent, hb, hleader, hindex⟩ := h
  refine ⟨subdag, i + 1, b, hevent, hb, hleader, ?_⟩
  rw [hindex, List.take_succ_cons, Nat.add_right_comm index 1]
  rfl

/-- How `try_hard_commit` carries out the verdicts on the waves after `k`, one by one: what it
sends, and the state it ends in. -/
inductive Carried (sha3 : List UInt8 → BlockDigest) (c : Committee) :
    Nat → HardState → List (Option VerifiedBlock) → List Emission × Except Panic HardState → Prop
  | nil {k : Nat} {s : HardState} : Carried sha3 c k s [] ([], .ok s)
  | skip {k : Nat} {s : HardState} {verdicts : List (Option VerifiedBlock)}
      {out : List Emission × Except Panic HardState} :
      Carried sha3 c (k + 1) ⟨s.dag, leaderSlot c (k + 1)⟩ verdicts out → Carried sha3 c k s (none :: verdicts) out
  | panic {k : Nat} {s : HardState} {verdicts : List (Option VerifiedBlock)} {b : VerifiedBlock} {p : Panic} :
      s.dag.commitLeader sha3 b = .error p → Carried sha3 c k s (some b :: verdicts) ([], .error p)
  | commit {k : Nat} {s : HardState} {verdicts : List (Option VerifiedBlock)} {b : VerifiedBlock}
      {subDag : CommittedSubDag} {dag : DagState} {out : List Emission × Except Panic HardState} :
      s.dag.getBlock b.reference = some b → b.slot = leaderSlot c (k + 1) →
      s.dag.commitLeader sha3 b = .ok (subDag, dag) →
      Carried sha3 c (k + 1) ⟨dag, leaderSlot c (k + 1)⟩ verdicts out →
      Carried sha3 c k s (some b :: verdicts) (⟨s.dag, .hardCommit (toSharedSubdag subDag)⟩ :: out.1, out.2)

/-- **The decided leaders in order.** -/
theorem carried_commitEach {sha3 : List UInt8 → BlockDigest} {c : Committee} {s : HardState} {k : Nat}
    {decided : List DecidedLeader} {verdicts : List (Option VerifiedBlock)}
    (hstatus : decided.map DecidedLeader.status = label c (k + 1) (verdicts.map some))
    (hleaders : ∀ i b, verdicts[i]? = some (some b) → s.dag.Stores b ∧ b.slot = leaderSlot c (k + 1 + i)) :
    Carried sha3 c k s verdicts (s.commitEach sha3 decided) := by
  induction verdicts generalizing s k decided with
  | nil =>
    rw [List.map_nil, label, List.map_eq_nil_iff] at hstatus
    rw [hstatus]
    exact .nil
  | cons v rest ih =>
    have hrest := leaders_tail hleaders
    obtain ⟨d, ds, rfl, htail, hhead⟩ := decided_cons hstatus
    cases v with
    | none =>
      obtain rfl : d = .skip (leaderSlot c (k + 1)) := hhead
      exact .skip (@ih ⟨s.dag, leaderSlot c (k + 1)⟩ (k + 1) ds htail hrest)
    | some b =>
      obtain ⟨direct, rfl⟩ := hhead
      obtain ⟨hstored, hslot⟩ := hleaders 0 b rfl
      have hget := DagState.getBlock_of_blocks hstored
      cases hcommit : s.dag.commitLeader sha3 b with
      | error p =>
        rw [HardState.commitEach, hcommit]
        exact .panic hcommit
      | ok res =>
        obtain ⟨subDag, dag⟩ := res
        -- a commit leaves the blocks alone, so the later leaders are still stored
        obtain ⟨-, C, -, rfl⟩ := DagState.commitLeader_ok hget hcommit
        rw [HardState.commitEach, hcommit]
        dsimp only
        rw [hslot]
        exact .commit hget hslot hcommit (@ih ⟨({ s.dag with committed := C } : DagState).recordCommit subDag,
          leaderSlot c (k + 1)⟩ (k + 1) ds htail hrest)

/-- What is sent and reached, as far as the leaders go without a panic. -/
theorem Carried.spec {sha3 : List UInt8 → BlockDigest} {c : Committee} {k : Nat} {s : HardState}
    {verdicts : List (Option VerifiedBlock)} {out : List Emission × Except Panic HardState}
    (h : Carried sha3 c k s verdicts out) (hlast : s.lastDecided = leaderSlot c k) :
    (∀ e ∈ out.1, e.Reads ∧ s.dag.Advances e.dag ∧ NumberedFrom s.dag.lastCommitIndex verdicts e) ∧
      out.1.Pairwise (fun e e' => e.dag.committed ⊆ e'.dag.committed) ∧
      ∀ s', out.2 = .ok s' → (∀ e ∈ out.1, e.dag.committed ⊆ s'.dag.committed) ∧
        s.dag.Advances s'.dag ∧ s'.lastDecided = leaderSlot c (k + verdicts.length) ∧
        s'.dag.lastCommitIndex = s.dag.lastCommitIndex + (verdicts.filterMap id).length := by
  induction h with
  | nil =>
    refine ⟨fun e he => absurd he List.not_mem_nil, .nil, fun s' hs' => ?_⟩
    obtain rfl := Except.ok.inj hs'
    exact ⟨fun e he => absurd he List.not_mem_nil, .refl _, hlast, rfl⟩
  | skip _ ih =>
    obtain ⟨hsent, hgrows, hafter⟩ := ih rfl
    refine ⟨fun e he => ?_, hgrows, fun s' hs' => ?_⟩
    · obtain ⟨hreads, hadvances, hnumbered⟩ := hsent e he
      exact ⟨hreads, hadvances, hnumbered.skip⟩
    · rw [List.length_cons, Nat.add_comm _ 1, ← Nat.add_assoc]
      exact hafter s' hs'
  | panic => exact ⟨fun e he => absurd he List.not_mem_nil, .nil, fun s' hs' => (by cases hs')⟩
  | @commit k s rest b subDag dag out hget _ hcommit _ ih =>
    obtain ⟨⟨hfresh, hleader, hblocks, hindex⟩, C, hsub, rfl⟩ := DagState.commitLeader_ok hget hcommit
    have hadvance : s.dag.Advances (({ s.dag with committed := C } : DagState).recordCommit subDag) :=
      ⟨rfl, rfl, rfl, rfl, hsub⟩
    have hnext : (({ s.dag with committed := C } : DagState).recordCommit subDag).lastCommitIndex =
        s.dag.lastCommitIndex + 1 := hindex
    obtain ⟨hsent, hgrows, hafter⟩ := ih rfl
    rw [hnext] at hsent hafter
    refine ⟨fun e he => ?_, List.pairwise_cons.mpr ⟨fun e he => ?_, hgrows⟩, fun s' hs' => ?_⟩
    · rcases List.mem_cons.mp he with rfl | he
      · refine ⟨⟨?_, ?_, ?_⟩, .refl _, toSharedSubdag subDag, 0, b, rfl, rfl, hleader, hindex⟩
        · show s.dag.containsBlock subDag.leader = true
          rw [hleader]
          exact DagState.containsBlock_of_getBlock hget
        · show subDag.leader ∉ s.dag.committed
          rwa [hleader]
        · show subDag.blocks.map toSharedBlock = _
          rw [hblocks, ← hleader]
          rfl
      · obtain ⟨hreads, hadvances, hnumbered⟩ := hsent e he
        exact ⟨hreads, hadvance.trans hadvances, hnumbered.cons b⟩
    · exact hadvance.committed.trans (hsent e he).2.1.committed
    · obtain ⟨hgrown, hadvances, hlast', hcount⟩ := hafter s' hs'
      refine ⟨fun e he => ?_, hadvance.trans hadvances, ?_, ?_⟩
      · rcases List.mem_cons.mp he with rfl | he
        · exact (hadvance.trans hadvances).committed
        · exact hgrown e he
      · rw [List.length_cons, Nat.add_comm _ 1, ← Nat.add_assoc]
        exact hlast'
      · rw [hcount, Nat.add_right_comm]
        rfl

theorem HardLog.lower {c : Committee} {accepted : List VerifiedBlock} {verdicts : List (Option VerifiedBlock)}
    {sent : List Emission} {s : HardState} (h : HardLog c accepted verdicts sent s)
    (hlower : ∀ b ∈ accepted, ∀ a ∈ b.ancestors, a.round < b.round) {r : BlockRef} {x : VerifiedBlock}
    (hx : s.dag.getBlock r = some x) : ∀ a ∈ x.ancestors, a.round < x.round := by
  rcases Option.or_eq_some_iff.mp hx with hx | ⟨-, hx⟩
  · refine hlower x (h.stored x ?_)
    rw [DagState.Stores, DagState.blocks_reference hx]
    exact hx
  · intro a ha
    rw [h.genesis r x hx] at ha
    exact absurd ha List.not_mem_nil

/-- A pass of such a node that returned decided the next waves, for elected leaders. -/
theorem HardLog.decided {c : Committee} {accepted : List VerifiedBlock} {verdicts : List (Option VerifiedBlock)}
    {sent : List Emission} {s : HardState} (h : HardLog c accepted verdicts sent s) {decided : List DecidedLeader}
    (hdecide : s.dag.tryDecide (UniversalCommitterBuilder.build {}) s.lastDecided = .ok decided) :
    ∃ vs : List (Option VerifiedBlock),
      decided.map DecidedLeader.status = label c (verdicts.length + 1) (vs.map some) ∧
      (∀ i b, vs[i]? = some (some b) → s.dag.Elected (verdicts.length + 1 + i) b) ∧
      ∀ i b, vs[i]? = some (some b) → s.dag.Stores b ∧ b.slot = leaderSlot c (verdicts.length + 1 + i) := by
  rw [h.lastDecided, ← h.committee] at hdecide
  obtain ⟨vs, hlabel, helected⟩ := DagState.tryDecide_ok h.highest hdecide
  rw [h.committee] at hlabel
  refine ⟨vs, hlabel, helected, fun i b hb => ?_⟩
  obtain ⟨⟨hstored, hslot, -⟩, -⟩ := helected i b hb
  rw [h.committee] at hslot
  exact ⟨hstored, hslot⟩

theorem Numbered.of_numberedFrom {c : Committee} {verdicts vs : List (Option VerifiedBlock)} {e : Emission}
    (h : NumberedFrom (verdicts.filterMap id).length vs e)
    (hslots : ∀ i b, vs[i]? = some (some b) → b.slot = leaderSlot c (verdicts.length + 1 + i))
    {subdag : OurCommittedSubDag} (hevent : e.event = .hardCommit subdag) :
    Numbered c (verdicts ++ vs) subdag := by
  obtain ⟨subdag', i, b, hevent', hb, hleader, hindex⟩ := h
  obtain rfl : subdag' = subdag := ConsensusEvent.hardCommit.inj (hevent'.symm.trans hevent)
  refine ⟨verdicts.length + i, b, ?_, hleader, ?_, ?_⟩
  · rwa [List.getElem?_append_right (Nat.le_add_right ..), Nat.add_sub_cancel_left]
  · rw [hslots i b hb, Nat.add_right_comm]
  · rw [hindex, List.take_length_add_append, List.filterMap_append, List.length_append]

/-- An elected leader was sent early: the certificate that elected it lists a quorum of votes. -/
theorem HardLog.sent_early {c : Committee} {accepted : List VerifiedBlock} {verdicts : List (Option VerifiedBlock)}
    {sent : List Emission} {s : HardState} (hs : HardLog c accepted verdicts sent s)
    (h : NodeLog c accepted verdicts sent) (hlower : ∀ b ∈ accepted, ∀ a ∈ b.ancestors, a.round < b.round)
    {w : Nat} {b : VerifiedBlock} (hpos : 0 < w) (hslot : b.slot = leaderSlot c w) (helected : s.dag.Elected w b) :
    b.reference ∈ softLeaders sent := by
  obtain ⟨A, hA, hvoted⟩ := helected.voted fun hx => hs.lower hlower hx
  rw [hs.committee] at hA
  rw [h.quorums]
  refine hA.mono fun x hx => ?_
  obtain ⟨v, hv, hvx, hvround, hlisted⟩ := hvoted x hx
  rw [SoftCommitTracker.mem_votersOf, mem_castVotes]
  exact ⟨w, hpos, hslot, v, hs.stored v hv, hvx, hvround, hlisted⟩

/-- A pass that returned left a state with its log. -/
theorem HardLog.advance {c : Committee} {accepted : List VerifiedBlock} {verdicts vs : List (Option VerifiedBlock)}
    {sent new : List Emission} {s s' : HardState} (hs : HardLog c accepted verdicts sent s)
    (hadvances : s.dag.Advances s'.dag) (hlast : s'.lastDecided = leaderSlot c (verdicts.length + vs.length))
    (hindex : s'.dag.lastCommitIndex = s.dag.lastCommitIndex + (vs.filterMap id).length)
    (hgrown : ∀ e ∈ new, e.dag.committed ⊆ s'.dag.committed) :
    HardLog c accepted (verdicts ++ vs) (sent ++ new) s' := by
  refine ⟨hadvances.committee.trans hs.committee, fun b hb => hs.stored b (hadvances.stores_iff.mp hb), ?_,
    ?_, ?_, ?_, fun e he => ?_⟩
  · rw [hadvances.genesis]
    exact hs.genesis
  · rw [hadvances.highest]
    exact hs.highest
  · rw [List.length_append]
    exact hlast
  · rw [hindex, hs.index, List.filterMap_append, List.length_append]
  · rcases List.mem_append.mp he with he | he
    · exact (hs.grown e he).trans hadvances.committed
    · exact hgrown e he

/-- **The committing pass** keeps the log. -/
theorem NodeLog.hard {sha3 : List UInt8 → BlockDigest} {c : Committee} {accepted : List VerifiedBlock}
    {verdicts : List (Option VerifiedBlock)} {sent : List Emission} (h : NodeLog c accepted verdicts sent)
    {s : HardState} (hs : HardLog c accepted verdicts sent s) {decided : List DecidedLeader}
    (hdecide : s.dag.tryDecide (UniversalCommitterBuilder.build {}) s.lastDecided = .ok decided) :
    ∃ vs, decided.map DecidedLeader.status = label c (verdicts.length + 1) (vs.map some) ∧
      NodeLog c accepted (verdicts ++ vs) (sent ++ (s.commitEach sha3 decided).1) ∧
      softLeaders (sent ++ (s.commitEach sha3 decided).1) = softLeaders sent ∧
      ∀ s', (s.commitEach sha3 decided).2 = .ok s' →
        HardLog c accepted (verdicts ++ vs) (sent ++ (s.commitEach sha3 decided).1) s' := by
  obtain ⟨vs, hlabel, helected, hleaders⟩ := hs.decided hdecide
  obtain ⟨hsent, hgrows, hafter⟩ := (@carried_commitEach sha3 c s _ _ _ hlabel hleaders).spec hs.lastDecided
  have hsoft : softLeaders (s.commitEach sha3 decided).1 = [] := by
    rw [List.eq_nil_iff_forall_not_mem]
    intro leader hmem
    obtain ⟨e, he, round, txs, hevent⟩ := mem_softLeaders.mp hmem
    obtain ⟨subdag, -, -, hhard, -⟩ := (hsent e he).2.2
    rw [hhard] at hevent
    cases hevent
  have hboth : softLeaders (sent ++ (s.commitEach sha3 decided).1) = softLeaders sent := by
    rw [softLeaders_append, hsoft, List.append_nil]
  refine ⟨vs, hlabel, ⟨fun e he => ?_, ?_, fun e he subdag hevent => ?_, ?_, fun leader => ?_, fun hlower => ?_⟩,
    hboth, fun s' hs' => ?_⟩
  · rcases List.mem_append.mp he with he | he
    · exact h.reads e he
    · exact (hsent e he).1
  · refine List.pairwise_append.mpr ⟨h.grows, hgrows, fun e he e' he' => ?_⟩
    exact (hs.grown e he).trans (hsent e' he').2.1.committed
  · rcases List.mem_append.mp he with he | he
    · exact (h.numbered e he subdag hevent).append vs
    · have hnumbered := (hsent e he).2.2
      rw [hs.index] at hnumbered
      exact .of_numberedFrom hnumbered (fun i b hb => (hleaders i b hb).2) hevent
  · rw [hboth]
    exact h.once
  · rw [hboth]
    exact h.quorums leader
  · refine (h.early hlower).append fun e he subdag hevent => ?_
    obtain ⟨subdag', i, b, hevent', hb, hleader, -⟩ := (hsent e he).2.2
    obtain rfl : subdag' = subdag := ConsensusEvent.hardCommit.inj (hevent'.symm.trans hevent)
    rw [hleader]
    exact hs.sent_early h hlower (Nat.add_pos_left (Nat.succ_pos _) i) (hleaders i b hb).2 (helected i b hb)
  · obtain ⟨hgrown, hadvances, hlast, hindex⟩ := hafter s' hs'
    exact hs.advance hadvances hlast hindex hgrown

/-! ### Runs -/

theorem nodeLog_new (c : Committee) : NodeLog c [] [] [] where
  reads e he := absurd he List.not_mem_nil
  grows := .nil
  numbered e he := absurd he List.not_mem_nil
  once := List.nodup_nil
  quorums leader := (SoftCommitTracker.tallies_new c).fired leader
  early := by
    intro _ before e after subdag hsplit
    have hmem : e ∈ ([] : List Emission) := by
      rw [hsplit]
      exact List.mem_append_right _ (List.mem_cons_self ..)
    exact absurd hmem List.not_mem_nil

theorem logged_new (sha3 : List UInt8 → BlockDigest) (c : Committee) :
    Logged c [] [] [] (.new sha3 c) where
  registered := BlockManager.registered_new _
  tallies := SoftCommitTracker.tallies_new c
  fired leader := iff_of_false (Finset.notMem_empty _) List.not_mem_nil
  hard := by
    have hzero : 0 < u32Size := by decide
    refine ⟨rfl, fun b hb => (by cases hb), fun r b hb => ?_, hzero, ?_, rfl,
      fun e he => absurd he List.not_mem_nil⟩
    · obtain ⟨i, -, rfl⟩ := List.mem_map.mp (DagState.mem_genesisBlocks hb)
      rfl
    · show Slot.mk 0 0 = Slot.mk (3 * 0) (electLeaderIndex c (3 * 0) 0)
      rw [electLeaderIndex, Nat.mul_zero, Nat.zero_mod, Nat.zero_mod]

/-- **The committing half of a call** keeps the log. -/
theorem Logged.tryHardCommit (sha3 : List UInt8 → BlockDigest) {c : Committee} {accepted : List VerifiedBlock}
    {verdicts : List (Option VerifiedBlock)} {sent : List Emission} (h : NodeLog c accepted verdicts sent)
    {node : ConsensusNode} (hnode : Logged c accepted verdicts sent node) :
    ∃ vs, (node.tryHardCommit sha3).decided.map DecidedLeader.status =
        label c (verdicts.length + 1) (vs.map some) ∧
      NodeLog c accepted (verdicts ++ vs) (sent ++ (node.tryHardCommit sha3).sent) ∧
      ∀ next, (node.tryHardCommit sha3).node = .ok next →
        Logged c accepted (verdicts ++ vs) (sent ++ (node.tryHardCommit sha3).sent) next := by
  unfold ConsensusNode.tryHardCommit
  cases hdecide : node.manager.dagState.tryDecide (UniversalCommitterBuilder.build {}) node.lastDecided with
  | error p =>
    refine ⟨[], rfl, ?_, fun next hnext => (by cases hnext)⟩
    rwa [List.append_nil, List.append_nil]
  | ok decided =>
    obtain ⟨vs, hlabel, hlog, hsoft, hafter⟩ := @NodeLog.hard sha3 _ _ _ _ h _ hnode.hard _ hdecide
    refine ⟨vs, hlabel, hlog, fun next hnext => ?_⟩
    dsimp only at hnext ⊢
    cases hres : (HardState.commitEach sha3 ⟨node.manager.dagState, node.lastDecided⟩ decided).2 with
    | error p =>
      rw [hres] at hnext
      cases hnext
    | ok s' =>
      rw [hres] at hnext
      obtain rfl := Except.ok.inj hnext
      refine ⟨⟨hnode.registered.keyed, hnode.registered.waits, hnode.registered.ancestor,
        hnode.registered.indexed⟩, hnode.tallies, fun leader => ?_, hafter s' hres⟩
      rw [hsoft]
      exact hnode.fired leader

/-- **One call** keeps the log, also if it panics. -/
theorem Logged.acceptBlocks (sha3 : List UInt8 → BlockDigest) {c : Committee} {accepted : List VerifiedBlock}
    {verdicts : List (Option VerifiedBlock)} {sent : List Emission} (h : NodeLog c accepted verdicts sent)
    {node : ConsensusNode} (hnode : Logged c accepted verdicts sent node) (batch : List VerifiedBlock) :
    let o := node.acceptBlocks sha3 batch
    ∃ vs, o.decided.map DecidedLeader.status = label c (verdicts.length + 1) (vs.map some) ∧
      NodeLog c (accepted ++ o.accepted) (verdicts ++ vs) (sent ++ o.sent) ∧
      ∀ next, o.node = .ok next → Logged c (accepted ++ o.accepted) (verdicts ++ vs) (sent ++ o.sent) next := by
  obtain ⟨hlog, hchecked⟩ := hnode.check h batch
  obtain ⟨vs, hlabel, hlog', hafter⟩ := hchecked.tryHardCommit sha3 hlog
  rw [List.append_assoc] at hlog' hafter
  exact ⟨vs, hlabel, hlog', hafter⟩

theorem Logged.run (sha3 : List UInt8 → BlockDigest) {c : Committee} {accepted : List VerifiedBlock}
    {verdicts : List (Option VerifiedBlock)} {sent : List Emission} (h : NodeLog c accepted verdicts sent)
    {node : ConsensusNode} (hnode : Logged c accepted verdicts sent node) (batches : List (List VerifiedBlock)) :
    let o := node.run sha3 batches
    ∃ vs, o.decided.map DecidedLeader.status = label c (verdicts.length + 1) (vs.map some) ∧
      NodeLog c (accepted ++ o.accepted) (verdicts ++ vs) (sent ++ o.sent) := by
  induction batches generalizing accepted verdicts sent node with
  | nil =>
    refine ⟨[], rfl, ?_⟩
    show NodeLog c (accepted ++ []) (verdicts ++ []) (sent ++ [])
    rwa [List.append_nil, List.append_nil, List.append_nil]
  | cons batch rest ih =>
    obtain ⟨vs, hlabel, hlog, hafter⟩ := hnode.acceptBlocks sha3 h batch
    unfold ConsensusNode.run
    dsimp only
    cases hnext : (node.acceptBlocks sha3 batch).node with
    | error p => exact ⟨vs, hlabel, hlog⟩
    | ok next =>
      obtain ⟨vs', hlabel', hlog'⟩ := ih hlog (hafter next hnext)
      refine ⟨vs ++ vs', ?_, ?_⟩
      · rw [List.map_append, hlabel, hlabel', List.map_append, label_append, List.length_map, List.length_append,
          Nat.add_right_comm]
      · rwa [List.append_assoc, List.append_assoc, List.append_assoc] at hlog'

/-- **Every run keeps its log**, up to the panic that may end it. -/
theorem run_log (sha3 : List UInt8 → BlockDigest) (c : Committee) (batches : List (List VerifiedBlock)) :
    let o := (ConsensusNode.new sha3 c).run sha3 batches
    ∃ verdicts, o.decided.map DecidedLeader.status = label c 1 (verdicts.map some) ∧
      NodeLog c o.accepted verdicts o.sent := by
  exact (logged_new sha3 c).run sha3 (nodeLog_new c) batches

/-- What a call that returned did: the decided leaders were committed over the DAG the block
manager left, and the rest of the manager was not touched after that. -/
theorem acceptBlocks_ok {sha3 : List UInt8 → BlockDigest} {node next : ConsensusNode}
    {batch : List VerifiedBlock} (h : (node.acceptBlocks sha3 batch).node = .ok next) :
    let o := node.manager.tryAcceptBlocks batch
    ∃ decided s, o.manager.dagState.tryDecide (UniversalCommitterBuilder.build {}) node.lastDecided = .ok decided ∧
      (HardState.commitEach sha3 ⟨o.manager.dagState, node.lastDecided⟩ decided).2 = .ok s ∧
      next.manager = { o.manager with dagState := s.dag } ∧ next.lastDecided = s.lastDecided := by
  intro o
  unfold ConsensusNode.acceptBlocks ConsensusNode.tryHardCommit at h
  dsimp only at h
  split at h
  · cases h
  · rename_i decided hdecide
    cases hres : (HardState.commitEach sha3 ⟨o.manager.dagState, node.lastDecided⟩ decided).2 with
    | error p =>
      rw [hres] at h
      cases h
    | ok s =>
      rw [hres] at h
      obtain rfl := Except.ok.inj h
      exact ⟨decided, s, hdecide, hres, rfl, rfl⟩

/-- What a run accepts was delivered, or suspended at its start. -/
theorem mem_run_accepted {sha3 : List UInt8 → BlockDigest} {P : VerifiedBlock → Prop} {node : ConsensusNode}
    (hregistered : node.manager.Registered) (hsuspended : node.manager.SuspendedAll P)
    {batches : List (List VerifiedBlock)} (hbatches : ∀ b ∈ batches.flatten, P b) :
    ∀ b ∈ (node.run sha3 batches).accepted, P b := by
  induction batches generalizing node with
  | nil => exact fun b hb => absurd hb List.not_mem_nil
  | cons batch rest ih =>
    rw [List.flatten_cons] at hbatches
    obtain ⟨hfirst, hafter⟩ := hsuspended.tryAcceptBlocks hregistered fun b hb =>
      hbatches b (List.mem_append_left _ hb)
    unfold ConsensusNode.run
    dsimp only
    cases hnext : (node.acceptBlocks sha3 batch).node with
    | error p => exact hfirst
    | ok next =>
      obtain ⟨-, s, -, -, hmanager, -⟩ := acceptBlocks_ok hnext
      have hkept := hregistered.acceptEach (BlockManager.sortByRound batch)
      have hregistered' : next.manager.Registered := by
        rw [hmanager]
        exact ⟨hkept.keyed, hkept.waits, hkept.ancestor, hkept.indexed⟩
      have hsuspended' : next.manager.SuspendedAll P := by
        rw [hmanager]
        exact hafter
      intro b hb
      rcases List.mem_append.mp hb with hb | hb
      · exact hfirst b hb
      · exact ih hregistered' hsuspended' (fun x hx => hbatches x (List.mem_append_right _ hx)) b hb

end DualOptimistic.Consensus
