import DualOptimistic.Consensus.NodeRun

/-! Committed blocks are out of the way of the decisions.

`try_decide` reads slots and rounds without their committed blocks, and so would lose votes
if one it looks at were committed. It only looks above the last decided leader, and a
commit only reaches below its leader: after any calls, every committed block is at or below
the last decided round, the decisions are those over all stored blocks, and every leader is
new when it is committed (`run_committed_below`). -/
namespace DualOptimistic.Consensus
open Data

/-- The block lists lower rounds only. -/
def LowerAncestors (b : VerifiedBlock) : Prop := ∀ a ∈ b.ancestors, a.round < b.round

namespace DagState

/-! ### Reads without the filter -/

/-- All blocks in a slot. -/
def blocksAtSlot (dag : DagState) (slot : Slot) : List VerifiedBlock :=
  (dag.blocks.map.range fun r =>
    BlockRef.new slot.round slot.authority BlockDigest.min ≤ r &&
      r ≤ BlockRef.new slot.round slot.authority BlockDigest.max).map Prod.snd

/-- All blocks at a round. -/
def blocksAtRound (dag : DagState) (round : Round) : List VerifiedBlock :=
  (dag.blocks.map.range fun r =>
    BlockRef.new round 0 BlockDigest.min ≤ r && r < BlockRef.new (round + 1) 0 BlockDigest.min).map Prod.snd

/-- The same blocks, none of them committed. -/
def unfiltered (dag : DagState) : DagState := { dag with committed := ∅ }

@[simp] theorem unfiltered_getUncommittedBlocksAtSlot (dag : DagState) (slot : Slot) :
    dag.unfiltered.getUncommittedBlocksAtSlot slot = dag.blocksAtSlot slot :=
  List.filter_eq_self.mpr fun _ _ => by simp [isCommitted, unfiltered]

@[simp] theorem unfiltered_getUncommittedBlocksAtRound (dag : DagState) (round : Round) :
    dag.unfiltered.getUncommittedBlocksAtRound round = dag.blocksAtRound round :=
  List.filter_eq_self.mpr fun _ _ => by simp [isCommitted, unfiltered]

variable {dag : DagState}

/-- Above all committed blocks a slot is read whole. -/
theorem getUncommittedBlocksAtSlot_above {slot : Slot} (hround : slot.round < u32Size)
    (habove : ∀ r ∈ dag.committed, r.round < slot.round) :
    dag.getUncommittedBlocksAtSlot slot = dag.blocksAtSlot slot := by
  apply List.filter_eq_self.mpr
  intro b hb
  have hb' : b ∈ dag.unfiltered.getUncommittedBlocksAtSlot slot := by
    rw [unfiltered_getUncommittedBlocksAtSlot]
    exact hb
  have hslot : b.round = slot.round := congrArg Slot.round ((mem_getUncommittedBlocksAtSlot hround).mp hb').2.1
  have hnew : b.reference ∉ dag.committed := fun hmem => (habove _ hmem).ne hslot
  simpa [isCommitted] using hnew

/-- Above all committed blocks a round is read whole. -/
theorem getUncommittedBlocksAtRound_above {round : Round} (hround : round + 1 < u32Size)
    (habove : ∀ r ∈ dag.committed, r.round < round) :
    dag.getUncommittedBlocksAtRound round = dag.blocksAtRound round := by
  apply List.filter_eq_self.mpr
  intro b hb
  have hb' : b ∈ dag.unfiltered.getUncommittedBlocksAtRound round := by
    rw [unfiltered_getUncommittedBlocksAtRound]
    exact hb
  have hat : b.round = round := ((mem_getUncommittedBlocksAtRound hround).mp hb').2.1
  have hnew : b.reference ∉ dag.committed := fun hmem => (habove _ hmem).ne hat
  simpa [isCommitted] using hnew

/-! ### Votes do not depend on commits -/

theorem firstSupport_unfiltered {slot : Slot} {support : VerifiedBlock → Except Panic (Option BlockRef)}
    (refs : List BlockRef) :
    dag.unfiltered.firstSupport slot support refs = dag.firstSupport slot support refs := by
  induction refs with
  | nil => rfl
  | cons a rest ih =>
    rw [firstSupport, firstSupport, ih]
    rfl

theorem findSupportedBlock_unfiltered (slot : Slot) (depth : Nat) :
    dag.unfiltered.findSupportedBlock slot depth = dag.findSupportedBlock slot depth := by
  induction depth with
  | zero => rfl
  | succ depth ih =>
    funext source
    rw [findSupportedBlock, findSupportedBlock, ih, firstSupport_unfiltered]

theorem refIsVote_unfiltered (leader : VerifiedBlock) (r : BlockRef) :
    dag.unfiltered.refIsVote leader r = dag.refIsVote leader r := by
  have hvote : ∀ v, dag.unfiltered.isVote v leader = dag.isVote v leader := by
    intro v
    rw [isVote, isVote, findSupportedBlock_unfiltered]
  rw [refIsVote, refIsVote]
  simp only [hvote]
  rfl

theorem isCertificate_unfiltered (d leader : VerifiedBlock) (allVotes : OrdMap BlockRef Bool) :
    dag.unfiltered.isCertificate d leader allVotes = dag.isCertificate d leader allVotes := by
  have hcount : ∀ (refs : List BlockRef) (votesStake : StakeAggregator) (allVotes : OrdMap BlockRef Bool),
      dag.unfiltered.countVotes leader refs votesStake allVotes =
        dag.countVotes leader refs votesStake allVotes := by
    intro refs
    induction refs with
    | nil => exact fun _ _ => rfl
    | cons r rest ih =>
      intro votesStake allVotes
      rw [countVotes, countVotes]
      simp only [ih, refIsVote_unfiltered]
      rfl
  exact hcount ..

theorem anyCertificate_unfiltered (leader : VerifiedBlock) (l : List VerifiedBlock)
    (allVotes : OrdMap BlockRef Bool) :
    dag.unfiltered.anyCertificate leader l allVotes = dag.anyCertificate leader l allVotes := by
  induction l generalizing allVotes with
  | nil => rfl
  | cons b rest ih =>
    rw [anyCertificate, anyCertificate, isCertificate_unfiltered]
    simp only [ih]

theorem countCertificates_unfiltered (leader : VerifiedBlock) (l : List VerifiedBlock)
    (support : StakeAggregator) (allVotes : OrdMap BlockRef Bool) :
    dag.unfiltered.countCertificates leader l support allVotes =
      dag.countCertificates leader l support allVotes := by
  induction l generalizing support allVotes with
  | nil => rfl
  | cons b rest ih =>
    rw [countCertificates, countCertificates, isCertificate_unfiltered]
    simp only [ih]
    rfl

/-! ### The rules over a slot above all commits -/

section Above
variable {w : WaveNumber} (habove : ∀ r ∈ dag.committed, r.round < 3 * w) (hw : 3 * w + 2 + 1 < u32Size)
include habove hw

theorem slotBlocks_unfiltered : dag.unfiltered.getUncommittedBlocksAtSlot (leaderSlot dag.committee w) =
    dag.getUncommittedBlocksAtSlot (leaderSlot dag.committee w) := by
  have hround : (leaderSlot dag.committee w).round < u32Size := by
    show 3 * w < u32Size
    exact Nat.lt_of_le_of_lt (Nat.le_add_right ..) hw
  rw [unfiltered_getUncommittedBlocksAtSlot, getUncommittedBlocksAtSlot_above hround habove]

theorem roundBlocks_unfiltered {n : Nat} (hn : n ≤ 2) :
    dag.unfiltered.getUncommittedBlocksAtRound (3 * w + n) = dag.getUncommittedBlocksAtRound (3 * w + n) := by
  have hround : 3 * w + n + 1 < u32Size :=
    Nat.lt_of_le_of_lt (Nat.add_le_add_right (Nat.add_le_add_left hn _) 1) hw
  have habove' : ∀ r ∈ dag.committed, r.round < 3 * w + n := fun r hr =>
    (habove r hr).trans_le (Nat.le_add_right ..)
  rw [unfiltered_getUncommittedBlocksAtRound, getUncommittedBlocksAtRound_above hround habove']

theorem tryDirectDecide_unfiltered :
    dag.unfiltered.tryDirectDecide {} (leaderSlot dag.committee w) =
      dag.tryDirectDecide {} (leaderSlot dag.committee w) := by
  have hblame : dag.unfiltered.enoughLeaderBlame (3 * w + 1) = dag.enoughLeaderBlame (3 * w + 1) := by
    funext leader
    rw [enoughLeaderBlame, enoughLeaderBlame, roundBlocks_unfiltered habove hw (Nat.le_succ 1)]
    rfl
  have hsupport : dag.unfiltered.enoughLeaderSupport (3 * w + 2) = dag.enoughLeaderSupport (3 * w + 2) := by
    funext leader
    rw [enoughLeaderSupport, enoughLeaderSupport, roundBlocks_unfiltered habove hw le_rfl,
      countCertificates_unfiltered]
  rw [tryDirectDecide, tryDirectDecide, slotBlocks_unfiltered habove hw, decisionRound_eq dag.committee w,
    hsupport]
  show (if dag.unfiltered.enoughLeaderBlame (3 * w + 1) _ then _ else _) = _
  rw [hblame]
  rfl

theorem tryIndirectDecide_unfiltered (leaders : List LeaderStatus) :
    dag.unfiltered.tryIndirectDecide {} (leaderSlot dag.committee w) leaders =
      dag.tryIndirectDecide {} (leaderSlot dag.committee w) leaders := by
  have hanchor : ∀ anchor, dag.unfiltered.decideLeaderFromAnchor {} anchor (leaderSlot dag.committee w) =
      dag.decideLeaderFromAnchor {} anchor (leaderSlot dag.committee w) := by
    intro anchor
    rw [decideLeaderFromAnchor, decideLeaderFromAnchor, slotBlocks_unfiltered habove hw]
    simp only [anyCertificate_unfiltered]
    rfl
  induction leaders with
  | nil => rfl
  | cons anchor rest ih =>
    cases anchor with
    | commit block => simp only [tryIndirectDecide, hanchor, ih]
    | skip slot => simp only [tryIndirectDecide, ih]
    | undecided slot => simp only [tryIndirectDecide, ih]

theorem decideSlot_unfiltered (leaders : List (LeaderStatus × Decision)) :
    dag.unfiltered.decideSlot {} (leaderSlot dag.committee w) leaders =
      dag.decideSlot {} (leaderSlot dag.committee w) leaders := by
  rw [decideSlot, decideSlot, tryDirectDecide_unfiltered habove hw, tryIndirectDecide_unfiltered habove hw]

end Above

/-! ### The pass -/

/-- **The round loop** stops at the last decided leader, so every slot it decides is above
all commits. -/
theorem decideRounds_unfiltered {k n : Nat} (hcommitted : ∀ r ∈ dag.committed, r.round ≤ 3 * k)
    (hn : 3 * k + n + 2 < u32Size) (leaders : List (LeaderStatus × Decision)) :
    dag.unfiltered.decideRounds [{}] (leaderSlot dag.committee k) (List.range' (3 * k) (n + 1)).reverse leaders =
      dag.decideRounds [{}] (leaderSlot dag.committee k) (List.range' (3 * k) (n + 1)).reverse leaders := by
  induction n generalizing leaders with
  | zero =>
    show dag.unfiltered.decideRounds [{}] _ [3 * k] leaders = dag.decideRounds [{}] _ [3 * k] leaders
    rw [decideRounds, decideRounds, List.reverse_singleton, decideRound_last]
    exact congrArg (· >>= _) (@decideRound_last dag.unfiltered k leaders)
  | succ n ih =>
    rw [rounds_down, decideRounds, decideRounds, List.reverse_singleton]
    have hrest : 3 * k + n + 2 < u32Size := Nat.lt_of_succ_lt hn
    rcases wave_of_round k n with ⟨w, hkw, hw, -⟩ | ⟨hmod, -⟩
    · rw [hw] at hn ⊢
      have habove : ∀ r ∈ dag.committed, r.round < 3 * w := fun r hr =>
        (hcommitted r hr).trans_lt (Nat.mul_lt_mul_of_pos_left hkw (Nat.succ_pos 2))
      have hround : dag.unfiltered.decideRound (leaderSlot dag.committee k) (3 * w) [{}] leaders =
          dag.decideRound (leaderSlot dag.committee k) (3 * w) [{}] leaders := by
        rw [decideRound_leader (leaderSlot_ne hkw), ← decideSlot_unfiltered habove (decision_lt hn)]
        exact decideRound_leader (leaderSlot_ne hkw) leaders
      rw [hround]
      simp only [ih hrest]
    · rw [decideRound_between hmod, decideRound_between hmod]
      exact ih hrest leaders

theorem tryDecide_unfiltered {k : Nat} (hcommitted : ∀ r ∈ dag.committed, r.round ≤ 3 * k)
    (hhighest : dag.highestAcceptedRound < u32Size) :
    dag.unfiltered.tryDecide (UniversalCommitterBuilder.build {}) (leaderSlot dag.committee k) =
      dag.tryDecide (UniversalCommitterBuilder.build {}) (leaderSlot dag.committee k) := by
  rw [tryDecide, tryDecide, show dag.unfiltered.openRounds = dag.openRounds from rfl]
  rcases openRounds_cases dag k with ⟨hnone, -⟩ | ⟨n, hn, hrounds⟩
  · rw [hnone]
    rfl
  · have harith : ∀ m : Nat, m < 2 ^ 32 → m - 2 + 2 < 2 ^ 32 := by omega
    have hbound : 3 * k + n + 2 < u32Size := hn ▸ harith _ hhighest
    rw [hrounds]
    exact congrArg (· >>= _) (decideRounds_unfiltered hcommitted hbound [])

/-! ### How far a commit reaches -/

/-- Every block lists lower rounds only. -/
def Lower (dag : DagState) : Prop := ∀ {r x}, dag.getBlock r = some x → LowerAncestors x

theorem fetchBlocks_ok {refs : List BlockRef} {blocks : List VerifiedBlock}
    (h : dag.fetchBlocks refs = .ok blocks) :
    ∀ b ∈ blocks, dag.getBlock b.reference = some b ∧ b.reference ∈ refs := by
  induction refs generalizing blocks with
  | nil =>
    obtain rfl : [] = blocks := Except.ok.inj h
    exact fun b hb => absurd hb List.not_mem_nil
  | cons r rest ih =>
    rw [fetchBlocks] at h
    cases hget : dag.getBlock r with
    | none =>
      rw [hget] at h
      cases h
    | some x =>
      rw [hget] at h
      obtain ⟨more, hmore, h⟩ := except_bind_ok_iff.mp h
      obtain rfl : x :: more = blocks := Except.ok.inj h
      have href : x.reference = r := getBlock_reference hget
      intro b hb
      rcases List.mem_cons.mp hb with rfl | hb
      · rw [href]
        exact ⟨hget, List.mem_cons_self ..⟩
      · obtain ⟨hstored, hmem⟩ := ih hmore b hb
        exact ⟨hstored, List.mem_cons_of_mem _ hmem⟩

/-- Pushing marks what it pushes. -/
theorem pushCommitted_ok {l buffer buffer' : List VerifiedBlock} {dag' : DagState}
    (h : dag.pushCommitted l buffer = .ok (dag', buffer')) :
    (∃ C, dag' = { dag with committed := C } ∧
      ∀ r ∈ C, r ∈ dag.committed ∨ r ∈ l.map VerifiedBlock.reference) ∧
    ∀ b ∈ buffer', b ∈ l ∨ b ∈ buffer := by
  induction l generalizing dag buffer with
  | nil =>
    obtain ⟨rfl, rfl⟩ := Prod.mk.inj (Except.ok.inj h)
    exact ⟨⟨dag.committed, rfl, fun r hr => .inl hr⟩, fun b hb => .inr hb⟩
  | cons x rest ih =>
    rw [pushCommitted] at h
    split_ifs at h
    obtain ⟨⟨C, hdag, hC⟩, hbuffer⟩ := ih h
    refine ⟨⟨C, hdag, fun r hr => ?_⟩, fun b hb => ?_⟩
    · rcases hC r hr with hr | hr
      · rcases Finset.mem_insert.mp hr with rfl | hr
        · exact .inr (List.mem_cons_self ..)
        · exact .inl hr
      · exact .inr (List.mem_cons_of_mem _ hr)
    · rcases hbuffer b hb with hb | hb
      · exact .inl (List.mem_cons_of_mem _ hb)
      · rcases List.mem_cons.mp hb with rfl | hb
        · exact .inl (List.mem_cons_self ..)
        · exact .inr hb

/-- **The walk** marks nothing above the blocks it starts from. -/
theorem linearizeLoop_rounds {n : Nat} {R : Round} (hlower : dag.Lower)
    (hcommitted : ∀ r ∈ dag.committed, r.round ≤ R) {buffer l : List VerifiedBlock} {dag' : DagState}
    (hbuffer : ∀ b ∈ buffer, dag.getBlock b.reference = some b ∧ b.round ≤ R)
    (hrun : linearizeLoop n dag buffer = .ok (l, dag')) : ∀ r ∈ dag'.committed, r.round ≤ R := by
  induction n generalizing dag buffer l with
  | zero =>
    cases buffer with
    | nil =>
      obtain ⟨-, rfl⟩ := Prod.mk.inj (Except.ok.inj hrun)
      exact hcommitted
    | cons b rest => cases hrun
  | succ n ih =>
    cases buffer with
    | nil =>
      obtain ⟨-, rfl⟩ := Prod.mk.inj (Except.ok.inj hrun)
      exact hcommitted
    | cons b rest =>
      rw [linearizeLoop] at hrun
      obtain ⟨ancestors, hfetch, hrun⟩ := except_bind_ok_iff.mp hrun
      obtain ⟨⟨dag₁, buffer⟩, hpush, hrun⟩ := except_bind_ok_iff.mp hrun
      obtain ⟨⟨l', dag₂⟩, hloop, hrun⟩ := except_bind_ok_iff.mp hrun
      obtain ⟨-, rfl⟩ := Prod.mk.inj (Except.ok.inj hrun)
      obtain ⟨⟨C, rfl, hC⟩, hnext⟩ := pushCommitted_ok hpush
      obtain ⟨hb, hbround⟩ := hbuffer b (List.mem_cons_self ..)
      have hancestors : ∀ x ∈ ancestors, dag.getBlock x.reference = some x ∧ x.round ≤ R := by
        intro x hx
        obtain ⟨hstored, hmem⟩ := fetchBlocks_ok hfetch x hx
        have hlt : x.round < b.round := hlower hb _ (List.mem_filter.mp hmem).1
        exact ⟨hstored, (hlt.trans_le hbround).le⟩
      refine @ih { dag with committed := C } hlower (fun r hr => ?_) _ _ (fun x hx => ?_) hloop
      · rcases hC r hr with hr | hr
        · exact hcommitted r hr
        · obtain ⟨x, hx, rfl⟩ := List.mem_map.mp hr
          exact (hancestors x hx).2
      · rcases hnext x hx with hx | hx
        · exact hancestors x hx
        · exact hbuffer x (List.mem_cons_of_mem _ hx)

theorem commitLeader_rounds {sha3 : List UInt8 → BlockDigest} {leader : VerifiedBlock} (hlower : dag.Lower)
    (hget : dag.getBlock leader.reference = some leader)
    (hcommitted : ∀ r ∈ dag.committed, r.round ≤ leader.round) {subDag : CommittedSubDag} {dag' : DagState}
    (hrun : dag.commitLeader sha3 leader = .ok (subDag, dag')) :
    ∀ r ∈ dag'.committed, r.round ≤ leader.round := by
  obtain ⟨⟨blocks, dag₁⟩, hwalk, hrun⟩ := except_bind_ok_iff.mp hrun
  obtain ⟨-, rfl⟩ := Prod.mk.inj (Except.ok.inj hrun)
  show ∀ r ∈ dag₁.committed, r.round ≤ leader.round
  rw [linearizeSubDag] at hwalk
  split_ifs at hwalk
  obtain ⟨⟨toCommit, dag₂⟩, hloop, hwalk⟩ := except_bind_ok_iff.mp hwalk
  dsimp only at hwalk
  split_ifs at hwalk
  obtain ⟨-, rfl⟩ := Prod.mk.inj (Except.ok.inj hwalk)
  have hmarked : ∀ r ∈ (dag.setCommitted leader.reference).2.committed, r.round ≤ leader.round := by
    intro r hr
    rcases Finset.mem_insert.mp hr with rfl | hr
    · exact le_rfl
    · exact hcommitted r hr
  have hstart : ∀ b ∈ [leader], dag.getBlock b.reference = some b ∧ b.round ≤ leader.round := by
    intro b hb
    rw [List.mem_singleton.mp hb]
    exact ⟨hget, le_rfl⟩
  exact @linearizeLoop_rounds (dag.setCommitted leader.reference).2 _ _ hlower hmarked _ _ _ hstart hloop

end DagState

/-- **The decided leaders in order.** What they commit is at or below the last of them. -/
theorem Carried.rounds {sha3 : List UInt8 → BlockDigest} {c : Committee} {k : Nat} {s s' : HardState}
    {verdicts : List (Option VerifiedBlock)} {out : List Emission × Except Panic HardState}
    (h : Carried sha3 c k s verdicts out) (hlower : s.dag.Lower)
    (hcommitted : ∀ r ∈ s.dag.committed, r.round ≤ 3 * k) (hout : out.2 = .ok s') :
    ∀ r ∈ s'.dag.committed, r.round ≤ 3 * (k + verdicts.length) := by
  have hlen : ∀ k n : Nat, k + (n + 1) = k + 1 + n := by omega
  induction h with
  | nil =>
    obtain rfl := Except.ok.inj hout
    exact hcommitted
  | @skip k s rest out _ ih =>
    rw [List.length_cons, hlen]
    refine ih hlower (fun r hr => ?_) hout
    exact (hcommitted r hr).trans (Nat.mul_le_mul_left 3 (Nat.le_succ k))
  | panic => cases hout
  | @commit k s rest b subDag dag out hget hslot hcommit _ ih =>
    have hround : b.round = 3 * (k + 1) := congrArg Slot.round hslot
    have hbelow : ∀ r ∈ s.dag.committed, r.round ≤ b.round := fun r hr =>
      (hcommitted r hr).trans (hround ▸ Nat.mul_le_mul_left 3 (Nat.le_succ k))
    have hnext := DagState.commitLeader_rounds hlower hget hbelow hcommit
    rw [hround] at hnext
    obtain ⟨-, C, -, rfl⟩ := DagState.commitLeader_ok hget hcommit
    rw [List.length_cons, hlen]
    exact ih hlower hnext hout

/-- The leader `b` is handed to `commit_leader` over the DAG `dag`: those decided before it
were carried out. -/
def HardState.Hands (sha3 : List UInt8 → BlockDigest) (s : HardState) (decided : List DecidedLeader)
    (dag : DagState) (b : VerifiedBlock) : Prop :=
  ∃ before direct after last, decided = before ++ .commit b direct :: after ∧
    (s.commitEach sha3 before).2 = .ok ⟨dag, last⟩

/-- Decisions split at a commit as their verdicts do. -/
theorem label_split {c : Committee} {w : WaveNumber} {before after : List DecidedLeader} {b : VerifiedBlock}
    {direct : Bool} {verdicts : List (Option VerifiedBlock)}
    (h : (before ++ .commit b direct :: after).map DecidedLeader.status = label c w (verdicts.map some)) :
    ∃ front back, verdicts = front ++ some b :: back ∧
      before.map DecidedLeader.status = label c w (front.map some) := by
  induction before generalizing w verdicts with
  | nil =>
    cases verdicts with
    | nil => cases h
    | cons v rest =>
      obtain ⟨d, ds, hcons, -, hhead⟩ := decided_cons h
      obtain ⟨rfl, -⟩ := List.cons.inj hcons
      cases v with
      | none => cases hhead
      | some b' =>
        obtain ⟨direct', hcommit⟩ := hhead
        obtain ⟨rfl, -⟩ := DecidedLeader.commit.inj hcommit
        exact ⟨[], rest, rfl, rfl⟩
  | cons d before ih =>
    cases verdicts with
    | nil => cases h
    | cons v rest =>
      obtain ⟨hd, hrest⟩ := List.cons.inj h
      obtain ⟨front, back, rfl, hfront⟩ := ih hrest
      exact ⟨v :: front, back, rfl, congrArg₂ List.cons hd hfront⟩

/-- **A leader is new when it is committed**: it is above those before it. -/
theorem hands_fresh {sha3 : List UInt8 → BlockDigest} {c : Committee} {s : HardState} {k : Nat}
    (hlower : s.dag.Lower) (hcommitted : ∀ r ∈ s.dag.committed, r.round ≤ 3 * k) {decided : List DecidedLeader}
    {verdicts : List (Option VerifiedBlock)}
    (hstatus : decided.map DecidedLeader.status = label c (k + 1) (verdicts.map some))
    (hleaders : ∀ i b, verdicts[i]? = some (some b) → s.dag.Stores b ∧ b.slot = leaderSlot c (k + 1 + i))
    {dag : DagState} {b : VerifiedBlock} (h : s.Hands sha3 decided dag b) : b.reference ∉ dag.committed := by
  obtain ⟨before, direct, after, last, rfl, hrun⟩ := h
  obtain ⟨front, back, rfl, hfront⟩ := label_split hstatus
  have hslot : b.slot = leaderSlot c (k + 1 + front.length) := (hleaders front.length b (by simp)).2
  have hround : b.round = 3 * (k + 1 + front.length) := congrArg Slot.round hslot
  have hbefore : ∀ r ∈ dag.committed, r.round ≤ 3 * (k + front.length) := by
    refine (carried_commitEach hfront fun i x hx => hleaders i x ?_).rounds hlower hcommitted hrun
    rwa [List.getElem?_append_left (List.getElem?_eq_some_iff.mp hx).1]
  intro hmem
  have hle : b.round ≤ 3 * (k + front.length) := hbefore _ hmem
  have harith : ∀ n : Nat, ¬ 3 * (k + 1 + n) ≤ 3 * (k + n) := by omega
  exact harith _ (hround ▸ hle)

/-! ### Runs -/

/-- A node fed blocks that list lower rounds only, with its log, and its commits at or below the
last decided round. -/
structure Settled (c : Committee) (accepted : List VerifiedBlock) (verdicts : List (Option VerifiedBlock))
    (sent : List Emission) (node : ConsensusNode) : Prop where
  log : NodeLog c accepted verdicts sent
  logged : Logged c accepted verdicts sent node
  lower : ∀ b ∈ accepted, LowerAncestors b
  suspended : node.manager.SuspendedAll LowerAncestors
  committed : ∀ r ∈ node.manager.dagState.committed, r.round ≤ node.lastDecided.round

theorem settled_new (sha3 : List UInt8 → BlockDigest) (c : Committee) : Settled c [] [] [] (.new sha3 c) where
  log := nodeLog_new c
  logged := logged_new sha3 c
  lower b hb := absurd hb List.not_mem_nil
  suspended k s hs := by cases hs
  committed _ hr := (DagState.new_committed hr).le

/-- Accepting blocks commits none. -/
theorem Settled.committed_accepted {c : Committee} {accepted : List VerifiedBlock}
    {verdicts : List (Option VerifiedBlock)} {sent : List Emission} {node : ConsensusNode}
    (h : Settled c accepted verdicts sent node) (batch : List VerifiedBlock) :
    ∀ r ∈ (node.manager.tryAcceptBlocks batch).manager.dagState.committed, r.round ≤ 3 * verdicts.length := by
  intro r hr
  rw [node.manager.tryAcceptBlocks_dagState, DagState.acceptBlocks_committed] at hr
  exact (h.committed r hr).trans_eq (congrArg Slot.round h.logged.hard.lastDecided)

/-- **The state a call decides in**, with the batch accepted: the filter hides nothing, the
leaders are new, and what is committed stays at or below the last of them. -/
theorem Settled.decide {sha3 : List UInt8 → BlockDigest} {c : Committee} {accepted : List VerifiedBlock}
    {verdicts : List (Option VerifiedBlock)} {sent : List Emission} {node : ConsensusNode}
    (h : Settled c accepted verdicts sent node) {batch : List VerifiedBlock}
    (hbatch : ∀ b ∈ batch, LowerAncestors b) :
    let dag := (node.manager.tryAcceptBlocks batch).manager.dagState
    dag.unfiltered.tryDecide (UniversalCommitterBuilder.build {}) node.lastDecided =
        dag.tryDecide (UniversalCommitterBuilder.build {}) node.lastDecided ∧
      ∀ decided, dag.tryDecide (UniversalCommitterBuilder.build {}) node.lastDecided = .ok decided →
        (∀ dag' b, HardState.Hands sha3 ⟨dag, node.lastDecided⟩ decided dag' b → b.reference ∉ dag'.committed) ∧
        ∀ s, (HardState.commitEach sha3 ⟨dag, node.lastDecided⟩ decided).2 = .ok s →
          ∀ r ∈ s.dag.committed, r.round ≤ s.lastDecided.round := by
  intro dag
  have hhard := h.logged.accepted batch
  have hall : ∀ b ∈ accepted ++ (node.manager.tryAcceptBlocks batch).accepted, LowerAncestors b := by
    intro b hb
    rcases List.mem_append.mp hb with hb | hb
    · exact h.lower b hb
    · exact (h.suspended.tryAcceptBlocks h.logged.registered hbatch).1 b hb
  have hlower : dag.Lower := fun hx => hhard.lower hall hx
  have hcommitted : ∀ r ∈ dag.committed, r.round ≤ 3 * verdicts.length := h.committed_accepted batch
  refine ⟨?_, fun decided hdecide => ?_⟩
  · rw [show node.lastDecided = leaderSlot dag.committee verdicts.length by
      rw [hhard.committee]
      exact hhard.lastDecided]
    exact DagState.tryDecide_unfiltered hcommitted hhard.highest
  · obtain ⟨vs, hlabel, -, hleaders⟩ := hhard.decided hdecide
    refine ⟨fun dag' b hands => hands_fresh hlower hcommitted hlabel hleaders hands, fun s hs => ?_⟩
    have hcarried := @carried_commitEach sha3 c ⟨dag, node.lastDecided⟩ _ _ _ hlabel hleaders
    have hround : s.lastDecided = leaderSlot c (verdicts.length + vs.length) :=
      ((hcarried.spec hhard.lastDecided).2.2 s hs).2.2.1
    rw [hround]
    exact hcarried.rounds hlower hcommitted hs

/-- **One call** that returns. -/
theorem Settled.acceptBlocks {sha3 : List UInt8 → BlockDigest} {c : Committee} {accepted : List VerifiedBlock}
    {verdicts : List (Option VerifiedBlock)} {sent : List Emission} {node next : ConsensusNode}
    (h : Settled c accepted verdicts sent node) {batch : List VerifiedBlock}
    (hbatch : ∀ b ∈ batch, LowerAncestors b) (hnext : (node.acceptBlocks sha3 batch).node = .ok next) :
    ∃ accepted' verdicts' sent', Settled c accepted' verdicts' sent' next := by
  obtain ⟨vs, -, hlog, hafter⟩ := h.logged.acceptBlocks sha3 h.log batch
  obtain ⟨decided, s, hdecide, hcommit, hmanager, hlast⟩ := acceptBlocks_ok hnext
  obtain ⟨haccepted, hsuspended⟩ := h.suspended.tryAcceptBlocks h.logged.registered hbatch
  refine ⟨_, _, _, hlog, hafter next hnext, fun b hb => ?_, ?_, ?_⟩
  · rcases List.mem_append.mp hb with hb | hb
    · exact h.lower b hb
    · exact haccepted b hb
  · rw [hmanager]
    exact hsuspended
  · rw [hmanager, hlast]
    exact ((h.decide hbatch).2 decided hdecide).2 s hcommit

theorem Settled.run {sha3 : List UInt8 → BlockDigest} {c : Committee} {accepted : List VerifiedBlock}
    {verdicts : List (Option VerifiedBlock)} {sent : List Emission} {node last : ConsensusNode}
    (h : Settled c accepted verdicts sent node) {batches : List (List VerifiedBlock)}
    (hbatches : ∀ b ∈ batches.flatten, LowerAncestors b) (hrun : (node.run sha3 batches).node = .ok last) :
    ∃ accepted' verdicts' sent', Settled c accepted' verdicts' sent' last := by
  induction batches generalizing accepted verdicts sent node with
  | nil =>
    obtain rfl : node = last := Except.ok.inj hrun
    exact ⟨accepted, verdicts, sent, h⟩
  | cons batch rest ih =>
    rw [List.flatten_cons] at hbatches
    unfold ConsensusNode.run at hrun
    dsimp only at hrun
    cases hnext : (node.acceptBlocks sha3 batch).node with
    | error p =>
      rw [hnext] at hrun
      cases hrun
    | ok next =>
      rw [hnext] at hrun
      obtain ⟨_, _, _, hsettled⟩ := h.acceptBlocks (fun b hb => hbatches b (List.mem_append_left _ hb)) hnext
      exact ih hsettled (fun b hb => hbatches b (List.mem_append_right _ hb)) hrun

/-- **The committed-block filter hides nothing.** After any calls with blocks that list lower
rounds only, every committed block is at or below the last decided round; and in the next
call, whatever it brings, the pass decides as it would over all stored blocks, and no
leader it hands to `commit_leader` is committed already. -/
theorem run_committed_below (sha3 : List UInt8 → BlockDigest) (c : Committee)
    {batches : List (List VerifiedBlock)}
    (hlower : ∀ b ∈ batches.flatten, ∀ a ∈ b.ancestors, a.round < b.round) {node : ConsensusNode}
    (hrun : ((ConsensusNode.new sha3 c).run sha3 batches).node = .ok node) :
    (∀ r ∈ node.manager.dagState.committed, r.round ≤ node.lastDecided.round) ∧
      ∀ batch : List VerifiedBlock, (∀ b ∈ batch, ∀ a ∈ b.ancestors, a.round < b.round) →
        let dag := (node.manager.tryAcceptBlocks batch).manager.dagState
        dag.tryDecide (UniversalCommitterBuilder.build {}) node.lastDecided =
            dag.unfiltered.tryDecide (UniversalCommitterBuilder.build {}) node.lastDecided ∧
          ∀ decided, dag.tryDecide (UniversalCommitterBuilder.build {}) node.lastDecided = .ok decided →
            ∀ dag' b, HardState.Hands sha3 ⟨dag, node.lastDecided⟩ decided dag' b →
              b.reference ∉ dag'.committed := by
  obtain ⟨_, _, _, hsettled⟩ := (settled_new sha3 c).run hlower hrun
  refine ⟨hsettled.committed, fun batch hbatch => ?_⟩
  obtain ⟨hsame, hdecided⟩ := hsettled.decide hbatch
  exact ⟨hsame.symm, fun decided hdecide => (hdecided decided hdecide).1⟩

/-- Five links of a chain commit the first three; the next three commit the sixth link, which
was not committed before. -/
theorem run_committed_below_chain :
    ∃ node, ((ConsensusNode.new (fun _ => 0) (Committee.equal 0)).run (fun _ => 0)
        [[link 0, link 1, link 2, link 3, link 4]]).node = .ok node ∧
      (link 1).reference ∈ node.manager.dagState.committed ∧ node.lastDecided = ⟨3, 0⟩ ∧
      (∀ r ∈ node.manager.dagState.committed, r.round ≤ node.lastDecided.round) ∧
      let dag := (node.manager.tryAcceptBlocks [link 5, link 6, link 7]).manager.dagState
      dag.tryDecide (UniversalCommitterBuilder.build {}) node.lastDecided = .ok [.commit (link 5) true] ∧
        dag.unfiltered.tryDecide (UniversalCommitterBuilder.build {}) node.lastDecided =
          .ok [.commit (link 5) true] ∧
        (link 5).reference ∉ dag.committed := by
  have hfacts : (((ConsensusNode.new (fun _ => 0) (Committee.equal 0)).run (fun _ => 0)
      [[link 0, link 1, link 2, link 3, link 4]]).node.map fun node =>
      (decide ((link 1).reference ∈ node.manager.dagState.committed), node.lastDecided,
        (node.manager.tryAcceptBlocks [link 5, link 6, link 7]).manager.dagState.tryDecide
          (UniversalCommitterBuilder.build {}) node.lastDecided)) =
      .ok (true, ⟨3, 0⟩, .ok [.commit (link 5) true]) := by decide +kernel
  cases hrun : ((ConsensusNode.new (fun _ => 0) (Committee.equal 0)).run (fun _ => 0)
      [[link 0, link 1, link 2, link 3, link 4]]).node with
  | error p =>
    rw [hrun] at hfacts
    cases hfacts
  | ok node =>
    rw [hrun] at hfacts
    obtain ⟨hmem, hrest⟩ := Prod.mk.inj (Except.ok.inj hfacts)
    obtain ⟨hlast, hdecide⟩ := Prod.mk.inj hrest
    obtain ⟨hbelow, hnext⟩ := run_committed_below (fun _ => 0) (Committee.equal 0) (by decide) hrun
    obtain ⟨hsame, hfresh⟩ := hnext [link 5, link 6, link 7] (by decide)
    refine ⟨node, rfl, of_decide_eq_true hmem, hlast, hbelow, hdecide, hsame.symm.trans hdecide, ?_⟩
    exact hfresh _ hdecide _ _ ⟨[], true, [], _, rfl, rfl⟩

end DualOptimistic.Consensus
