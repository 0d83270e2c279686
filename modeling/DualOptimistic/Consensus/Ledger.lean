import DualOptimistic.Consensus.SubDag
import DualOptimistic.Consensus.View

/-! The committed output of a node over a whole run.

A node that accepts batches of blocks and runs `try_hard_commit` after each never panics
if the blocks come from a universe in causal order (`Reached.run`): the waves are decided
one after the other, and the committed leaders take their histories with them, as the
universe alone determines (`Commits`). The output is one total order: every block comes
once, after its ancestors, and every sub-dag ends with its leader
(`run_wellOrdered`). -/
namespace DualOptimistic.Consensus
open Data

/-! ### Commits over a lookup -/

/-- What the linearizer remembers between commits. -/
structure Tally where
  committed : Finset BlockRef
  index : CommitIndex
  timestampMs : BlockTimestampMs

namespace Tally

/-- The tally after a leader whose walk left the marks `seen`. -/
def next (t : Tally) (leader : VerifiedBlock) (seen : Finset BlockRef) : Tally :=
  ⟨seen, t.index + 1, max leader.timestampMs t.timestampMs⟩

/-- The sub-dag of a leader whose walk visited the given references. -/
def subDag (sha3 : List UInt8 → BlockDigest) (block : BlockRef → Option VerifiedBlock) (t : Tally)
    (leader : VerifiedBlock) (visited : List BlockRef) : CommittedSubDag where
  leader := leader.reference
  blocks := sortSubDagBlocks (visited.filterMap block)
  timestampMs := max leader.timestampMs t.timestampMs
  commitRef := ⟨t.index + 1, deriveCommitDigest sha3 (t.index + 1) leader.reference⟩

end Tally

/-- The sub-dags of a list of leaders, committed one after the other. -/
inductive Commits (sha3 : List UInt8 → BlockDigest) (block : BlockRef → Option VerifiedBlock) :
    Tally → List VerifiedBlock → List CommittedSubDag → Tally → Prop
  | nil (t : Tally) : Commits sha3 block t [] [] t
  | cons {t t' : Tally} {n : Nat} {leader : VerifiedBlock} {visited : List BlockRef}
      {seen : Finset BlockRef} {leaders : List VerifiedBlock} {subDags : List CommittedSubDag} :
      leader.reference ∉ t.committed →
      search (links block) n (insert leader.reference t.committed) [leader.reference] = some (visited, seen) →
      Commits sha3 block (t.next leader seen) leaders subDags t' →
      Commits sha3 block t (leader :: leaders) (t.subDag sha3 block leader visited :: subDags) t'

variable {sha3 : List UInt8 → BlockDigest}

theorem Commits.append {block : BlockRef → Option VerifiedBlock} {t t' t'' : Tally}
    {leaders leaders' : List VerifiedBlock} {subDags subDags' : List CommittedSubDag}
    (h : Commits sha3 block t leaders subDags t') (h' : Commits sha3 block t' leaders' subDags' t'') :
    Commits sha3 block t (leaders ++ leaders') (subDags ++ subDags') t'' := by
  induction h with
  | nil => exact h'
  | cons hfresh hrun _ ih => exact .cons hfresh hrun (ih h')

/-- Fewer leaders commit fewer sub-dags, and the same ones. -/
theorem Commits.isPrefix {block : BlockRef → Option VerifiedBlock} {t t₁ t₂ : Tally}
    {leaders leaders' : List VerifiedBlock} {subDags subDags' : List CommittedSubDag}
    (h : Commits sha3 block t leaders subDags t₁) (h' : Commits sha3 block t leaders' subDags' t₂)
    (hpre : leaders <+: leaders') : subDags <+: subDags' := by
  induction h generalizing leaders' subDags' with
  | nil => exact List.nil_prefix
  | cons hfresh hrun _ ih =>
    cases h' with
    | nil => exact absurd (List.prefix_nil.mp hpre) (List.cons_ne_nil _ _)
    | cons hfresh' hrun' hrest' =>
      obtain ⟨rfl, htail⟩ := List.cons_prefix_cons.mp hpre
      obtain ⟨rfl, rfl⟩ := Prod.mk.inj (search_unique hrun hrun')
      exact List.cons_prefix_cons.mpr ⟨rfl, ih hrest' htail⟩

namespace Universe
variable {c : Committee} {U : Universe c} {dag : DagState}

theorem links_round {r a : BlockRef} (h : a ∈ links U.block r) : a.round < r.round := by
  obtain ⟨b, hb, ha, -⟩ := mem_links.mp h
  have := U.lower hb a ha
  rwa [← VerifiedBlock.reference_round, U.keyed hb] at this

/-- A walk goes down from its leader. -/
theorem visited_round {root r : BlockRef} {C : Finset BlockRef} (hfresh : root ∉ C) {n : Nat}
    {visited : List BlockRef} {seen : Finset BlockRef}
    (hrun : search (links U.block) n (insert root C) [root] = some (visited, seen)) (hr : r ∈ visited) :
    r = root ∨ r.round < root.round := by
  obtain ⟨-, hreach, -, -⟩ := search_spec hfresh hrun
  have hpath := (hreach r).mp hr
  induction hpath with
  | refl => exact .inl rfl
  | tail hpath hstep ih =>
    have hlt := links_round hstep.1
    rcases ih ((hreach _).mpr hpath) with rfl | hlt'
    · exact .inr hlt
    · exact .inr (hlt.trans hlt')

/-! ### One commit -/

/-- No block lists a reference above genesis twice. -/
def LinksDistinct (U : Universe c) : Prop := ∀ r, (links U.block r).Nodup

theorem Distinct.linksDistinct (h : U.Distinct) : U.LinksDistinct := by
  intro r
  unfold links
  cases hb : U.block r with
  | none => exact List.nodup_nil
  | some b => exact (h r b hb).filter _

theorem Drawn.links_eq (h : U.Drawn dag) {r : BlockRef} (hr : dag.containsBlock r = true)
    (hpos : 0 < r.round) : links dag.getBlock r = links U.block r := by
  rw [links, links, h.getBlock_eq hpos hr]

theorem Drawn.distinct (h : U.Drawn dag) (hlinks : U.LinksDistinct) : dag.Distinct := by
  intro r
  cases hb : dag.getBlock r with
  | none =>
    rw [links, hb]
    exact List.nodup_nil
  | some b =>
    rcases Nat.eq_zero_or_pos r.round with hzero | hpos
    · -- genesis lists nothing
      have hnil : b.ancestors = [] := by
        rw [List.eq_nil_iff_forall_not_mem]
        intro a ha
        have hlt := h.sound.lower hb a ha
        rw [← VerifiedBlock.reference_round, DagState.getBlock_reference hb, hzero] at hlt
        exact Nat.not_lt_zero _ hlt
      rw [links, hb]
      dsimp only
      rw [hnil]
      exact List.nodup_nil
    · rw [h.links_eq (DagState.containsBlock_of_getBlock hb) hpos]
      exact hlinks r

/-- A walk from a stored block above genesis stays among such, where both lookups agree. -/
theorem Drawn.search_links_eq (h : U.Drawn dag) {root : BlockRef} (hroot : dag.containsBlock root = true)
    (hpos : 0 < root.round) {n : Nat} {C : Finset BlockRef} :
    search (links dag.getBlock) n (insert root C) [root] = search (links U.block) n (insert root C) [root] := by
  refine @search_congr _ _ _ _ (fun r => dag.containsBlock r = true ∧ 0 < r.round)
    (fun r hr => h.links_eq hr.1 hr.2) (fun r _ a ha => ⟨h.sound.closed.links_stored ha, ?_⟩) _ _ _
    fun r hr => ?_
  · obtain ⟨b, -, -, hround⟩ := mem_links.mp ha
    exact hround
  · rw [List.mem_singleton.mp hr]
    exact ⟨hroot, hpos⟩

end Universe

/-- The DAG with another tally. -/
def DagState.recordTally (dag : DagState) (t : Tally) (digest : CommitDigest) : DagState :=
  { dag with
    committed := t.committed
    lastCommitIndex := t.index
    lastCommitDigest := digest
    lastCommitTimestampMs := t.timestampMs }

def DagState.tally (dag : DagState) : Tally :=
  ⟨dag.committed, dag.lastCommitIndex, dag.lastCommitTimestampMs⟩

namespace Universe
variable {c : Committee} {U : Universe c} {dag : DagState}

theorem Drawn.recordTally (h : U.Drawn dag) (t : Tally) (digest : CommitDigest) :
    U.Drawn (dag.recordTally t digest) where
  committee := h.committee
  sound := ⟨h.sound.closed, h.sound.lower, h.sound.highest, h.sound.highest_lt⟩
  has := h.has
  top := h.top

/-- **One commit.** A stored leader that is not committed yet commits without a panic, as
the universe determines. -/
theorem Drawn.commitLeader_eq (h : U.Drawn dag) (hlinks : U.LinksDistinct) {leader : VerifiedBlock}
    (hleader : dag.Stores leader) (hpos : 0 < leader.round) (hfresh : leader.reference ∉ dag.committed) :
    ∃ n visited seen digest,
      search (links U.block) n (insert leader.reference dag.committed) [leader.reference] =
        some (visited, seen) ∧
      dag.commitLeader sha3 leader =
        .ok (dag.tally.subDag sha3 U.block leader visited,
          dag.recordTally (dag.tally.next leader seen) digest) := by
  have hget := DagState.getBlock_of_blocks hleader
  have hstored := DagState.containsBlock_of_getBlock hget
  obtain ⟨visited, seen, hrun, heq⟩ := h.sound.closed.linearizeSubDag_eq (h.distinct hlinks) hget hpos hfresh
  have hvisited : visited.filterMap dag.getBlock = visited.filterMap U.block := by
    refine List.filterMap_congr fun r hr => ?_
    obtain ⟨hr, hround⟩ := h.sound.closed.visited_stored hstored hpos hfresh hrun hr
    exact h.getBlock_eq hround hr
  rw [h.search_links_eq hstored hpos] at hrun
  refine ⟨dag.walkFuel, visited, seen, deriveCommitDigest sha3 (dag.lastCommitIndex + 1) leader.reference,
    hrun, ?_⟩
  rw [DagState.commitLeader, heq, hvisited]
  rfl

/-- **The decided leaders in order.** Verdicts on the waves after `k` are carried out without
a panic, each leader above everything committed before it. -/
theorem Drawn.commitDecided_eq (hlinks : U.LinksDistinct) {s : HardState} (h : U.Drawn s.dag) {k : Nat}
    (hlast : s.lastDecided = leaderSlot c k) (hcommitted : ∀ r ∈ s.dag.committed, r.round ≤ 3 * k)
    {decided : List DecidedLeader} {verdicts : List (Option VerifiedBlock)}
    (hstatus : decided.map DecidedLeader.status = label c (k + 1) (verdicts.map some))
    (hleaders : ∀ i b, verdicts[i]? = some (some b) →
      s.dag.Stores b ∧ b.slot = leaderSlot c (k + 1 + i)) :
    ∃ subDags t digest, s.commitDecided sha3 decided =
        .ok (subDags, ⟨s.dag.recordTally t digest, leaderSlot c (k + verdicts.length)⟩) ∧
      Commits sha3 U.block s.dag.tally (verdicts.filterMap id) subDags t ∧
      ∀ r ∈ t.committed, r.round ≤ 3 * (k + verdicts.length) := by
  induction verdicts generalizing s k decided with
  | nil =>
    rw [List.map_nil, label, List.map_eq_nil_iff] at hstatus
    obtain ⟨dag, last⟩ := s
    obtain rfl : last = leaderSlot c k := hlast
    rw [hstatus]
    exact ⟨[], dag.tally, dag.lastCommitDigest, rfl, .nil _, hcommitted⟩
  | cons v rest ih =>
    have hrest := leaders_tail hleaders
    have hlen : k + (v :: rest).length = k + 1 + rest.length := by
      rw [List.length_cons]
      omega
    obtain ⟨d, ds, rfl, htail, hhead⟩ := decided_cons hstatus
    rw [hlen]
    cases v with
    | none =>
      obtain rfl : d = .skip (leaderSlot c (k + 1)) := hhead
      have hweak : ∀ r ∈ s.dag.committed, r.round ≤ 3 * (k + 1) := fun r hr =>
        (hcommitted r hr).trans (Nat.mul_le_mul_left 3 (Nat.le_succ k))
      exact @ih ⟨s.dag, leaderSlot c (k + 1)⟩ h (k + 1) rfl hweak ds htail hrest
    | some b =>
      obtain ⟨direct, rfl⟩ := hhead
      obtain ⟨hstored, hslot⟩ := hleaders 0 b rfl
      have hround : b.round = 3 * (k + 1) := congrArg Slot.round hslot
      have hpos : 0 < b.round := hround ▸ Nat.succ_pos _
      have hfresh : b.reference ∉ s.dag.committed := by
        intro hmem
        have hle : b.round ≤ 3 * k := hcommitted _ hmem
        have harith : ¬ 3 * (k + 1) ≤ 3 * k := by omega
        exact harith (hround ▸ hle)
      obtain ⟨n, visited, seen, digest, hrun, hcommit⟩ :=
        @Drawn.commitLeader_eq sha3 c U s.dag h hlinks b hstored hpos hfresh
      have hseen : ∀ r ∈ seen, r.round ≤ 3 * (k + 1) := by
        intro r hr
        rw [(search_spec hfresh hrun).2.2.2, Finset.mem_union, List.mem_toFinset] at hr
        rcases hr with hr | hr
        · exact (hcommitted r hr).trans (Nat.mul_le_mul_left 3 (Nat.le_succ k))
        · rcases visited_round hfresh hrun hr with rfl | hlt
          · exact hround.le
          · exact (hlt.trans_eq hround).le
      obtain ⟨subDags, t, digest', heq, hcommits, hbound⟩ :=
        @ih ⟨s.dag.recordTally (s.dag.tally.next b seen) digest, leaderSlot c (k + 1)⟩
          (h.recordTally _ _) (k + 1) rfl hseen ds htail hrest
      refine ⟨s.dag.tally.subDag sha3 U.block b visited :: subDags, t, digest', ?_,
        .cons hfresh hrun hcommits, hbound⟩
      rw [HardState.commitDecided, hcommit, hslot, except_ok_bind]
      dsimp only
      rw [heq]
      rfl

/-- The waves after `k` that the pass looks at have their decision round. -/
theorem openWaves (dag : DagState) (k : Nat) {x : Nat} (hx : k + 1 ≤ x) (hlt : x < k + 1 + (dag.lastWave - k)) :
    3 * x + 2 ≤ dag.highestAcceptedRound := by
  have harith : ∀ m : Nat, x < k + 1 + (m - k) → x ≤ m := by omega
  exact DagState.open_of_le_lastWave (Nat.zero_lt_of_lt hx) (harith _ hlt)

/-- **The pass** over the waves after `k` does not panic; it decides the longest decided prefix of
their statuses, for stored leaders. -/
theorem Drawn.tryDecide_returns (h : U.Drawn dag) (k : Nat) :
    ∃ (decided : List DecidedLeader) (vs : List (Option VerifiedBlock)),
      dag.tryDecide (UniversalCommitterBuilder.build {}) (leaderSlot c k) = .ok decided ∧
      decided.map DecidedLeader.status = label c (k + 1) (vs.map some) ∧
      vs.map some = (dag.statuses (k + 1) (dag.lastWave - k)).takeWhile Option.isSome ∧
      ∀ i b, vs[i]? = some (some b) → dag.Stores b ∧ b.slot = leaderSlot c (k + 1 + i) := by
  obtain ⟨decided, hdecide, hlabel⟩ := DagState.tryDecide_eq h.sound h.unequivocal k
  obtain ⟨vs, hvs⟩ := exists_map_some (dag.statuses (k + 1) (dag.lastWave - k))
  rw [h.committee] at hdecide
  rw [h.committee, ← hvs] at hlabel
  refine ⟨decided, vs, hdecide, hlabel, hvs, fun i b hb => ?_⟩
  obtain ⟨hmem, hw⟩ := DagState.mem_of_statuses h.sound h.unequivocal (fun x => openWaves dag k)
    ((getElem?_of_takeWhile hvs).1 i _ hb)
  obtain ⟨hget, hslot, -⟩ := (DagState.mem_leaderBlocks (hw.trans_lt h.sound.highest_lt)).mp hmem
  rw [h.committee] at hslot
  exact ⟨hget, hslot⟩

end Universe

/-! ### Runs -/

namespace HardState

/-- Accept a batch and try to commit. -/
def feed (sha3 : List UInt8 → BlockDigest) (s : HardState) (batch : List VerifiedBlock) :
    Except Panic HardOutcome :=
  HardState.tryHardCommit sha3 ⟨s.dag.acceptBlocks batch, s.lastDecided⟩

/-- Batch after batch; what they decided and committed is concatenated. -/
def run (sha3 : List UInt8 → BlockDigest) (s : HardState) :
    List (List VerifiedBlock) → Except Panic HardOutcome
  | [] => .ok ⟨[], [], s⟩
  | batch :: rest => do
    let first ← s.feed sha3 batch
    let last ← HardState.run sha3 first.state rest
    pure ⟨first.decided ++ last.decided, first.subDags ++ last.subDags, last.state⟩

end HardState

theorem DagState.tally_acceptBlocks (dag : DagState) (l : List VerifiedBlock) :
    (dag.acceptBlocks l).tally = dag.tally := by
  induction l generalizing dag with
  | nil => rfl
  | cons b rest ih => exact ih (dag.acceptBlock b)

/-- What a node that was fed in causal order has reached: the waves are decided in order,
their leaders are committed, and nothing above the last one is. With quorum parents the
verdicts are those of the stored blocks, and the next wave is still open. -/
structure Reached (sha3 : List UInt8 → BlockDigest) {c : Committee} (U : Universe c) (s : HardState)
    (verdicts : List (Option VerifiedBlock)) (subDags : List CommittedSubDag) : Prop where
  drawn : U.Drawn s.dag
  lastDecided : s.lastDecided = leaderSlot c verdicts.length
  leaders : ∀ i b, verdicts[i]? = some (some b) → s.dag.Stores b ∧ b.slot = leaderSlot c (i + 1)
  commits : Commits sha3 U.block (DagState.new sha3 c).tally (verdicts.filterMap id) subDags s.dag.tally
  committed : ∀ r ∈ s.dag.committed, r.round ≤ 3 * verdicts.length
  settled : ∀ (hclosed : U.Closed) (hparents : U.QuorumParents),
    (∀ i v, verdicts[i]? = some v →
      WaveRule.Decided (U.view hclosed hparents s.dag.Stores fun _ => drawn.has) (i + 1) v) ∧
    ∀ v, ¬ WaveRule.Decided (U.view hclosed hparents s.dag.Stores fun _ => drawn.has) (verdicts.length + 1) v

namespace Reached
variable {c : Committee} {U : Universe c}

theorem new (sha3 : List UInt8 → BlockDigest) (U : Universe c) :
    Reached sha3 U (HardState.new sha3 c) [] [] where
  drawn := Universe.drawn_new sha3 U
  lastDecided := by
    show Slot.mk 0 0 = Slot.mk (3 * 0) (electLeaderIndex c (3 * 0) 0)
    rw [electLeaderIndex, Nat.mul_zero, Nat.zero_mod, Nat.zero_mod]
  leaders := fun i b hb => by cases hb
  commits := .nil _
  committed _ hr := (DagState.new_committed hr).le
  settled := by
    intro hclosed hparents
    refine ⟨fun i v hv => (by cases hv), fun v hdec => ?_⟩
    obtain ⟨d, hd, -⟩ := Universe.open_of_decided hdec (Nat.succ_pos _)
    cases hd

/-- A verdict on a wave is one of the old ones or of those after them. -/
theorem verdict_append {verdicts vs : List (Option VerifiedBlock)} {i : Nat} {v : Option VerifiedBlock}
    (h : (verdicts ++ vs)[i]? = some v) :
    verdicts[i]? = some v ∨ ∃ j, i = verdicts.length + j ∧ vs[j]? = some v := by
  rcases Nat.lt_or_ge i verdicts.length with hi | hi
  · rw [List.getElem?_append_left hi] at h
    exact .inl h
  · rw [List.getElem?_append_right hi] at h
    exact .inr ⟨i - verdicts.length, (Nat.add_sub_cancel' hi).symm, h⟩

/-- **One batch.** Nothing panics, and the newly decided waves follow the old ones. -/
theorem feed (hlinks : U.LinksDistinct) {s : HardState} {verdicts : List (Option VerifiedBlock)}
    {subDags : List CommittedSubDag} (h : Reached sha3 U s verdicts subDags) {batch : List VerifiedBlock}
    (hbatch : ∀ b ∈ batch, U.Has b) (hcausal : s.dag.CausalOrder batch) :
    ∃ o vs, s.feed sha3 batch = .ok o ∧
      o.decided.map DecidedLeader.status = label c (verdicts.length + 1) (vs.map some) ∧
      Reached sha3 U o.state (verdicts ++ vs) (subDags ++ o.subDags) ∧
      (∀ b, o.state.dag.Stores b ↔ b ∈ batch ∨ s.dag.Stores b) ∧
      ∀ l, (s.dag.acceptBlocks batch).CausalOrder l → o.state.dag.CausalOrder l := by
  obtain ⟨hdrawn, hstores⟩ := h.drawn.acceptBlocks hbatch hcausal
  have htally := s.dag.tally_acceptBlocks batch
  have hcommitted : ∀ r ∈ (s.dag.acceptBlocks batch).committed, r.round ≤ 3 * verdicts.length := by
    rw [DagState.acceptBlocks_committed]
    exact h.committed
  obtain ⟨decided, vs, hdecide, hlabel, hvs, hleaders⟩ := hdrawn.tryDecide_returns verdicts.length
  obtain ⟨hpre, hstop⟩ := getElem?_of_takeWhile hvs
  obtain ⟨newDags, t, digest, hcommit, hcommits, hbound⟩ :=
    @Universe.Drawn.commitDecided_eq sha3 c U hlinks ⟨s.dag.acceptBlocks batch, s.lastDecided⟩ hdrawn _
      h.lastDecided hcommitted decided vs hlabel hleaders
  have hlen : (verdicts ++ vs).length = verdicts.length + vs.length := List.length_append
  refine ⟨⟨decided, newDags, ⟨(s.dag.acceptBlocks batch).recordTally t digest,
    leaderSlot c (verdicts.length + vs.length)⟩⟩, vs, ?_, hlabel, ?_, hstores,
    fun l hl => @DagState.CausalOrder.congr (s.dag.acceptBlocks batch)
      ((s.dag.acceptBlocks batch).recordTally t digest) (fun _ => rfl) l hl⟩
  · rw [HardState.feed, HardState.tryHardCommit, h.lastDecided, hdecide, except_ok_bind]
    rw [h.lastDecided] at hcommit
    rw [hcommit]
    rfl
  · refine ⟨hdrawn.recordTally t digest, ?_, ?_, ?_, ?_, ?_⟩
    · rw [hlen]
    · intro i b hb
      rcases verdict_append hb with hold | ⟨j, rfl, hnew⟩
      · obtain ⟨hstored, hslot⟩ := h.leaders i b hold
        exact ⟨(hstores b).mpr (.inr hstored), hslot⟩
      · obtain ⟨hstored, hslot⟩ := hleaders j b hnew
        refine ⟨hstored, ?_⟩
        rwa [Nat.add_right_comm] at hslot
    · rw [List.filterMap_append]
      rw [htally] at hcommits
      exact h.commits.append hcommits
    · rw [hlen]
      exact hbound
    · intro hclosed hparents
      obtain ⟨hsound, -⟩ := h.settled hclosed hparents
      have hlast : ∀ m : Nat, m < verdicts.length + 1 + (m - verdicts.length) := by omega
      have hmatches := Universe.statuses_matches hdrawn hclosed hparents hcommitted
        (Nat.lt_add_one verdicts.length) (hlast _) fun x => Universe.openWaves _ _
      refine ⟨fun i v hv => ?_, fun v hdec => ?_⟩
      · rcases verdict_append hv with hold | ⟨j, rfl, hnew⟩
        · exact Universe.view_mono (fun b hb => (hstores b).mpr (.inr hb)) (hsound i v hold)
        · have hdec := (hmatches j v).mp (hpre j v hnew)
          rwa [Nat.add_right_comm] at hdec
      · rw [hlen, Nat.add_right_comm] at hdec
        exact hstop v ((hmatches _ v).mpr hdec)

/-- **A whole run**, batch by batch. -/
theorem run (hlinks : U.LinksDistinct) {s : HardState} {verdicts : List (Option VerifiedBlock)}
    {subDags : List CommittedSubDag} (h : Reached sha3 U s verdicts subDags)
    {batches : List (List VerifiedBlock)} (hbatches : ∀ b ∈ batches.flatten, U.Has b)
    (hcausal : s.dag.CausalOrder batches.flatten) :
    ∃ o vs, s.run sha3 batches = .ok o ∧
      o.decided.map DecidedLeader.status = label c (verdicts.length + 1) (vs.map some) ∧
      Reached sha3 U o.state (verdicts ++ vs) (subDags ++ o.subDags) ∧
      ∀ b, o.state.dag.Stores b ↔ b ∈ batches.flatten ∨ s.dag.Stores b := by
  induction batches generalizing s verdicts subDags with
  | nil =>
    refine ⟨⟨[], [], s⟩, [], rfl, rfl, ?_, fun b => by simp⟩
    rwa [List.append_nil, List.append_nil]
  | cons batch rest ih =>
    rw [List.flatten_cons] at hbatches hcausal
    obtain ⟨hfirst, hlater⟩ := hcausal.split
    obtain ⟨o, vs, hfeed, hlabel, hreached, hstores, horder⟩ :=
      h.feed hlinks (fun b hb => hbatches b (List.mem_append_left _ hb)) hfirst
    obtain ⟨o', vs', hrun, hlabel', hreached', hstores'⟩ :=
      ih hreached (fun b hb => hbatches b (List.mem_append_right _ hb)) (horder _ hlater)
    refine ⟨⟨o.decided ++ o'.decided, o.subDags ++ o'.subDags, o'.state⟩, vs ++ vs', ?_, ?_, ?_, ?_⟩
    · rw [HardState.run, hfeed]
      show (do
        let last ← HardState.run sha3 o.state rest
        pure (⟨o.decided ++ last.decided, o.subDags ++ last.subDags, last.state⟩ : HardOutcome)) = _
      rw [hrun]
      rfl
    · rw [List.map_append, hlabel, hlabel', List.map_append, label_append, List.length_map, List.length_append,
        Nat.add_right_comm]
    · rwa [← List.append_assoc, ← List.append_assoc]
    · intro b
      rw [hstores', hstores, List.flatten_cons, List.mem_append]
      tauto

end Reached

/-! ### The committed output -/

/-- One total order: numbered from 1, leaders and timestamps going up, every block once and
after its ancestors, every leader last in its sub-dag. -/
structure WellOrdered (subDags : List CommittedSubDag) : Prop where
  indices : subDags.map (fun s => s.commitRef.index) = List.range' 1 subDags.length
  rounds : subDags.Pairwise fun s s' => s.leader.round < s'.leader.round
  timestamps : subDags.Pairwise fun s s' => s.timestampMs ≤ s'.timestampMs
  once : ((subDags.flatMap CommittedSubDag.blocks).map VerifiedBlock.reference).Nodup
  causal : ∀ before b after, subDags.flatMap CommittedSubDag.blocks = before ++ b :: after →
    ∀ a ∈ b.ancestors, 0 < a.round → ∃ x ∈ before, x.reference = a
  leaderLast : ∀ s ∈ subDags, ∃ rest leader, s.blocks = rest ++ [leader] ∧ leader.reference = s.leader

section Output
variable {c : Committee} {U : Universe c} {t t' : Tally} {leaders : List VerifiedBlock}
  {subDags : List CommittedSubDag}

theorem Commits.indices {block : BlockRef → Option VerifiedBlock}
    (h : Commits sha3 block t leaders subDags t') :
    subDags.map (fun s => s.commitRef.index) = List.range' (t.index + 1) subDags.length := by
  induction h with
  | nil => rfl
  | cons _ _ _ ih =>
    rw [List.map_cons, ih, List.length_cons, List.range'_succ]
    rfl

theorem Commits.leaders_eq {block : BlockRef → Option VerifiedBlock}
    (h : Commits sha3 block t leaders subDags t') :
    subDags.map CommittedSubDag.leader = leaders.map VerifiedBlock.reference := by
  induction h with
  | nil => rfl
  | cons _ _ _ ih => exact congrArg (_ :: ·) ih

theorem Commits.timestamps {block : BlockRef → Option VerifiedBlock}
    (h : Commits sha3 block t leaders subDags t') :
    (∀ s ∈ subDags, t.timestampMs ≤ s.timestampMs) ∧
      subDags.Pairwise fun s s' => s.timestampMs ≤ s'.timestampMs := by
  induction h with
  | nil => exact ⟨fun s hs => absurd hs List.not_mem_nil, .nil⟩
  | cons _ _ _ ih =>
    refine ⟨fun s hs => ?_, List.pairwise_cons.mpr ih⟩
    rcases List.mem_cons.mp hs with rfl | hs
    · exact le_max_right _ _
    · exact (le_max_right _ _).trans (ih.1 s hs)

/-- The visited references that have a block are the references of the sub-dag. -/
theorem mem_subDag_blocks {visited : List BlockRef} {leader b : VerifiedBlock} :
    b ∈ (t.subDag sha3 U.block leader visited).blocks ↔ b.reference ∈ visited ∧ U.Has b := by
  show b ∈ sortSubDagBlocks (visited.filterMap U.block) ↔ _
  rw [(sortSubDagBlocks_perm _).mem_iff, List.mem_filterMap]
  constructor
  · intro h
    obtain ⟨r, hr, hb⟩ := h
    have href := U.keyed hb
    exact ⟨href ▸ hr, Universe.has_of_block hb⟩
  · exact fun h => ⟨b.reference, h.1, h.2⟩

theorem subDag_references_nodup {visited : List BlockRef} (hnodup : visited.Nodup) {leader : VerifiedBlock} :
    ((t.subDag sha3 U.block leader visited).blocks.map VerifiedBlock.reference).Nodup := by
  refine (((sortSubDagBlocks_perm (visited.filterMap U.block)).map _).nodup_iff).mpr ?_
  rw [List.map_filterMap]
  refine List.Nodup.filterMap (fun r r' a ha ha' => ?_) hnodup
  obtain ⟨b, hb, hba⟩ := Option.map_eq_some_iff.mp ha
  obtain ⟨b', hb', hba'⟩ := Option.map_eq_some_iff.mp ha'
  rw [← U.keyed hb, ← U.keyed hb', hba, hba']

theorem Commits.once (h : Commits sha3 U.block t leaders subDags t') :
    ((subDags.flatMap CommittedSubDag.blocks).map VerifiedBlock.reference).Nodup ∧
      ∀ b ∈ subDags.flatMap CommittedSubDag.blocks, U.Has b ∧ b.reference ∉ t.committed := by
  induction h with
  | nil => exact ⟨List.nodup_nil, fun b hb => absurd hb List.not_mem_nil⟩
  | @cons t t' n leader visited seen leaders subDags hfresh hrun _ ih =>
    obtain ⟨hnodup, -, hnew, hseen⟩ := search_spec hfresh hrun
    have hlater : ∀ {r}, r ∉ (t.next leader seen).committed → r ∉ t.committed ∧ r ∉ visited := by
      intro r hr
      have hr' : r ∉ seen := hr
      rwa [hseen, Finset.mem_union, List.mem_toFinset, not_or] at hr'
    rw [List.flatMap_cons, List.map_append, List.nodup_append]
    refine ⟨⟨subDag_references_nodup hnodup, ih.1, fun r hr r' hr' heq => ?_⟩, fun b hb => ?_⟩
    · obtain ⟨b, hb, rfl⟩ := List.mem_map.mp hr
      obtain ⟨b', hb', rfl⟩ := List.mem_map.mp hr'
      exact (hlater (ih.2 b' hb').2).2 (heq ▸ (mem_subDag_blocks.mp hb).1)
    · rcases List.mem_append.mp hb with hb | hb
      · obtain ⟨hb, hhas⟩ := mem_subDag_blocks.mp hb
        exact ⟨hhas, hnew _ hb⟩
      · exact ⟨(ih.2 b hb).1, (hlater (ih.2 b hb).2).1⟩

/-- The ancestors of a block of a sub-dag are committed before or come earlier in it. -/
theorem subDag_causal (hclosed : U.Closed) {n : Nat} {leader : VerifiedBlock} {visited : List BlockRef}
    {seen : Finset BlockRef} (hfresh : leader.reference ∉ t.committed)
    (hrun : search (links U.block) n (insert leader.reference t.committed) [leader.reference] =
      some (visited, seen))
    {before after : List VerifiedBlock} {b : VerifiedBlock}
    (hsplit : (t.subDag sha3 U.block leader visited).blocks = before ++ b :: after) {a : BlockRef}
    (ha : a ∈ b.ancestors) (hpos : 0 < a.round) : a ∈ t.committed ∨ ∃ x ∈ before, x.reference = a := by
  obtain ⟨-, hreach, -, -⟩ := search_spec hfresh hrun
  have hb : b ∈ (t.subDag sha3 U.block leader visited).blocks := by
    rw [hsplit]
    exact List.mem_append_right _ (List.mem_cons_self ..)
  obtain ⟨hbvisited, hbhas⟩ := mem_subDag_blocks.mp hb
  by_cases hC : a ∈ t.committed
  · exact .inl hC
  · -- the walk went on to `a`, and the sort puts it before `b`
    refine .inr ?_
    obtain ⟨x, hx⟩ := hclosed _ b hbhas a ha hpos
    have href := U.keyed hx
    have hlink : a ∈ links U.block b.reference := mem_links.mpr ⟨b, hbhas, ha, hpos⟩
    have hvisited : a ∈ visited := (hreach a).mpr (((hreach _).mp hbvisited).tail ⟨hlink, hC⟩)
    have hmem : x ∈ before ++ b :: after := by
      rw [← hsplit]
      exact mem_subDag_blocks.mpr ⟨href ▸ hvisited, Universe.has_of_block hx⟩
    have hlower : x.round < b.round := by
      have := hbhas.lower ha
      rwa [← href] at this
    have hsorted : (before ++ b :: after).Pairwise fun x y => x.round ≤ y.round := by
      rw [← hsplit]
      exact sortSubDagBlocks_rounds _
    rcases List.mem_append.mp hmem with hx | hx
    · exact ⟨x, hx, href⟩
    · have hle : b.round ≤ x.round := by
        rcases List.mem_cons.mp hx with rfl | hx
        · exact le_rfl
        · exact List.rel_of_pairwise_cons (List.pairwise_append.mp hsorted).2.1 hx
      exact absurd hlower (Nat.not_lt_of_le hle)

theorem Commits.causal (hclosed : U.Closed) (h : Commits sha3 U.block t leaders subDags t')
    {before after : List VerifiedBlock} {b : VerifiedBlock}
    (hsplit : subDags.flatMap CommittedSubDag.blocks = before ++ b :: after) {a : BlockRef}
    (ha : a ∈ b.ancestors) (hpos : 0 < a.round) : a ∈ t.committed ∨ ∃ x ∈ before, x.reference = a := by
  induction h generalizing before with
  | nil =>
    have hmem : b ∈ ([] : List VerifiedBlock) := by
      rw [show ([] : List VerifiedBlock) = before ++ b :: after from hsplit]
      exact List.mem_append_right _ (List.mem_cons_self ..)
    exact absurd hmem List.not_mem_nil
  | @cons t t' n leader visited seen leaders subDags hfresh hrun hrest ih =>
    have hseen := (search_spec hfresh hrun).2.2.2
    -- in a later sub-dag, what the first one committed is in front
    have hlater : ∀ rest, subDags.flatMap CommittedSubDag.blocks = rest ++ b :: after →
        a ∈ t.committed ∨
          ∃ x ∈ (t.subDag sha3 U.block leader visited).blocks ++ rest, x.reference = a := by
      intro rest hrestsplit
      rcases ih hrestsplit with hmem | ⟨x, hx, href⟩
      · have hmem' : a ∈ seen := hmem
        rw [hseen, Finset.mem_union, List.mem_toFinset] at hmem'
        rcases hmem' with hC | hvisited
        · exact .inl hC
        · have hb : b ∈ subDags.flatMap CommittedSubDag.blocks := by
            rw [hrestsplit]
            exact List.mem_append_right _ (List.mem_cons_self ..)
          obtain ⟨x, hx⟩ := hclosed _ b (hrest.once.2 b hb).1 a ha hpos
          have href := U.keyed hx
          refine .inr ⟨x, List.mem_append_left _ (mem_subDag_blocks.mpr ⟨?_, Universe.has_of_block hx⟩), href⟩
          rwa [href]
      · exact .inr ⟨x, List.mem_append_right _ hx, href⟩
    rw [List.flatMap_cons, List.append_eq_append_iff] at hsplit
    rcases hsplit with ⟨rest, hbefore, hrestsplit⟩ | ⟨tail, hfirst, hcons⟩
    · rw [hbefore]
      exact hlater rest hrestsplit
    · cases tail with
      | nil =>
        rw [List.append_nil] at hfirst
        have hrestsplit : subDags.flatMap CommittedSubDag.blocks = [] ++ b :: after := hcons.symm
        have := hlater [] hrestsplit
        rwa [List.append_nil, hfirst] at this
      | cons y tail =>
        obtain ⟨rfl, -⟩ := List.cons.inj hcons
        exact subDag_causal hclosed hfresh hrun hfirst ha hpos

/-- The leader is above everything it visits, so the sort puts it last. -/
theorem Commits.leaderLast (h : Commits sha3 U.block t leaders subDags t')
    (hhas : ∀ b ∈ leaders, U.Has b) {s : CommittedSubDag} (hs : s ∈ subDags) :
    ∃ rest leader, s.blocks = rest ++ [leader] ∧ leader.reference = s.leader := by
  induction h with
  | nil => exact absurd hs List.not_mem_nil
  | @cons t t' n leader visited seen leaders subDags hfresh hrun _ ih =>
    rcases List.mem_cons.mp hs with rfl | hs
    · obtain ⟨-, hreach, -, -⟩ := search_spec hfresh hrun
      have hmem : leader ∈ (t.subDag sha3 U.block leader visited).blocks :=
        mem_subDag_blocks.mpr ⟨(hreach _).mpr .refl, hhas leader (List.mem_cons_self ..)⟩
      rcases List.eq_nil_or_concat (t.subDag sha3 U.block leader visited).blocks with hnil | ⟨rest, last, hlast⟩
      · rw [hnil] at hmem
        exact absurd hmem List.not_mem_nil
      · rw [List.concat_eq_append] at hlast
        refine ⟨rest, last, hlast, ?_⟩
        have hlastmem : last ∈ (t.subDag sha3 U.block leader visited).blocks := by
          rw [hlast]
          exact List.mem_append_right _ (List.mem_singleton_self _)
        rcases Universe.visited_round hfresh hrun (mem_subDag_blocks.mp hlastmem).1 with heq | hlt
        · exact heq
        · have hsorted : (rest ++ [last]).Pairwise fun x y => x.round ≤ y.round := by
            rw [← hlast]
            exact sortSubDagBlocks_rounds _
          rw [hlast] at hmem
          rcases List.mem_append.mp hmem with hrest | hself
          · have hle := (List.pairwise_append.mp hsorted).2.2 leader hrest last (List.mem_singleton_self _)
            exact absurd hlt (Nat.not_lt_of_le hle)
          · rw [List.mem_singleton.mp hself]
            rfl
    · exact ih (fun b hb => hhas b (List.mem_cons_of_mem _ hb)) hs

end Output

/-- Leaders of waves decided in order have increasing rounds. -/
theorem leaders_pairwise {c : Committee} {verdicts : List (Option VerifiedBlock)}
    (h : ∀ i b, verdicts[i]? = some (some b) → b.slot = leaderSlot c (i + 1)) :
    (verdicts.filterMap id).Pairwise fun b b' => b.round < b'.round := by
  rw [List.pairwise_filterMap, List.pairwise_iff_getElem]
  intro i j hi hj hij b hb b' hb'
  have hround : b.round = 3 * (i + 1) := congrArg Slot.round (h i b (List.getElem?_eq_some_iff.mpr ⟨hi, hb⟩))
  have hround' : b'.round = 3 * (j + 1) :=
    congrArg Slot.round (h j b' (List.getElem?_eq_some_iff.mpr ⟨hj, hb'⟩))
  have harith : 3 * (i + 1) < 3 * (j + 1) := by omega
  rw [hround, hround']
  exact harith

/-- What was reached over a closed universe is one total order. -/
theorem Reached.wellOrdered {c : Committee} {U : Universe c} (hclosed : U.Closed) {s : HardState}
    {verdicts : List (Option VerifiedBlock)} {subDags : List CommittedSubDag}
    (h : Reached sha3 U s verdicts subDags) : WellOrdered subDags where
  indices := h.commits.indices
  rounds := by
    have hleaders := leaders_pairwise fun i b hb => (h.leaders i b hb).2
    have hmap : (subDags.map CommittedSubDag.leader).Pairwise fun r r' => r.round < r'.round := by
      rw [h.commits.leaders_eq]
      exact List.pairwise_map.mpr hleaders
    rw [List.pairwise_map] at hmap
    exact hmap
  timestamps := h.commits.timestamps.2
  once := h.commits.once.1
  causal before b after hsplit a ha hpos := by
    rcases h.commits.causal hclosed hsplit ha hpos with hgenesis | hbefore
    · -- only genesis is committed at the start
      have hzero : a.round ≤ 3 * 0 := (Reached.new sha3 U).committed a hgenesis
      exact absurd hpos (Nat.not_lt_of_le hzero)
    · exact hbefore
  leaderLast s hs := by
    refine h.commits.leaderLast (fun b hb => ?_) hs
    obtain ⟨v, hv, hvb⟩ := List.mem_filterMap.mp hb
    obtain ⟨i, hi⟩ := List.mem_iff_getElem?.mp hv
    exact h.drawn.has (h.leaders i b (hi.trans (congrArg some hvb))).1

/-! ### Blocks fed in causal order -/

/-- The references of the blocks fed. -/
def fedRefs (blocks : List VerifiedBlock) : Set BlockRef := {r | ∃ b ∈ blocks, b.reference = r}

/-- What a block fed in causal order lists above genesis was fed. -/
theorem fed_ancestors {c : Committee} {blocks : List VerifiedBlock}
    (hcausal : (DagState.new sha3 c).CausalOrder blocks) {b : VerifiedBlock} (hb : b ∈ blocks) {a : BlockRef}
    (ha : a ∈ b.ancestors) (hpos : 0 < a.round) : a ∈ fedRefs blocks := by
  obtain ⟨l, m, rfl⟩ := List.append_of_mem hb
  have hstored := hcausal.split.2.1 a ha hpos
  rw [DagState.containsBlock_acceptBlocks, List.mem_map] at hstored
  rcases hstored with ⟨x, hx, href⟩ | hold
  · exact ⟨x, List.mem_append_left _ hx, href⟩
  · rw [DagState.containsBlock_of_round_pos hpos] at hold
    cases hold

/-- A universe restricted to sets of fed blocks is closed. -/
theorem restrict_closed {c : Committee} {U : Universe c} {S : Set BlockRef} [DecidablePred (· ∈ S)]
    (hS : ∀ r ∈ S, ∃ blocks : List VerifiedBlock, (∀ b ∈ blocks, U.Has b) ∧
      (DagState.new sha3 c).CausalOrder blocks ∧ r ∈ fedRefs blocks ∧ fedRefs blocks ⊆ S) :
    (U.restrict S).Closed := by
  intro r b hb a ha hpos
  have hhas := Universe.has_of_block hb
  rw [Universe.restrict_has] at hhas
  obtain ⟨blocks, hblocks, hcausal, ⟨x, hx, hxr⟩, hsub⟩ := hS _ hhas.1
  obtain rfl : x = b := (hblocks x hx).eq hhas.2 hxr
  obtain ⟨y, hy, hya⟩ := fed_ancestors hcausal hx ha hpos
  refine ⟨y, ?_⟩
  have hyhas : (U.restrict S).Has y := Universe.restrict_has.mpr ⟨hsub ⟨y, hy, rfl⟩, hblocks y hy⟩
  rw [Universe.Has, hya] at hyhas
  exact hyhas

open Classical in
/-- **The committed output is one total order.** Fed blocks of a universe in causal order,
in any batching, a node commits without a panic and its sub-dags are well ordered. -/
theorem run_wellOrdered (sha3 : List UInt8 → BlockDigest) {c : Committee} (U : Universe c)
    (hdistinct : U.Distinct) {batches : List (List VerifiedBlock)}
    (hfed : ∀ b ∈ batches.flatten, U.Has b)
    (hcausal : (DagState.new sha3 c).CausalOrder batches.flatten) :
    ∃ o, (HardState.new sha3 c).run sha3 batches = .ok o ∧ WellOrdered o.subDags := by
  have hclosed : (U.restrict (fedRefs batches.flatten)).Closed :=
    restrict_closed fun r hr => ⟨batches.flatten, hfed, hcausal, hr, Set.Subset.refl _⟩
  obtain ⟨o, vs, hrun, -, hreached, -⟩ := (Reached.new sha3 (U.restrict (fedRefs batches.flatten))).run
    hdistinct.restrict.linksDistinct (fun b hb => Universe.restrict_has.mpr ⟨⟨b, hb, rfl⟩, hfed b hb⟩) hcausal
  exact ⟨o, hrun, hreached.wellOrdered hclosed⟩

/-- One authority and the first five links of its chain. -/
def chain : Universe (Committee.equal 0) :=
  .ofBlocks .single [link 0, link 1, link 2, link 3, link 4] ∅ (by decide) (by decide) Committee.single_faults
    (by decide)

theorem chain_distinct : chain.Distinct := by
  have hall : ∀ b ∈ [link 0, link 1, link 2, link 3, link 4], b.ancestors.Nodup := by decide
  exact fun r b hb => hall b (Universe.mem_of_ofBlocks hb)

/-- The third link is committed with the two before it. -/
theorem run_wellOrdered_chain :
    let run := (HardState.new (fun _ => 0) (Committee.equal 0)).run (fun _ => 0)
      [[link 0, link 1], [link 2, link 3, link 4]]
    (run.map fun o => o.subDags.map CommittedSubDag.blocks) = .ok [[link 0, link 1, link 2]] ∧
      ∃ o, run = .ok o ∧ WellOrdered o.subDags := by
  exact ⟨by decide +kernel, run_wellOrdered _ chain chain_distinct (by decide +kernel) (by decide +kernel)⟩

end DualOptimistic.Consensus
