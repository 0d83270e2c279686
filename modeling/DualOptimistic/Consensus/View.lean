import DualOptimistic.Consensus.DecisionPass

/-! A node's DAG as a view of the universe.

What a block of a closed store votes for, certifies and reaches is the same in the store
and in the universe, because its whole history is in both. With quorum parents the
universe is then a wave rule (`Universe.rule`), the stored blocks are a view of it
(`Universe.view`), and the statuses of the pass are exactly the decisions of that view
(`statuses_matches`). -/
namespace DualOptimistic.Consensus
open Data

/-- The block was accepted. -/
def DagState.Stores (dag : DagState) (b : VerifiedBlock) : Prop :=
  dag.blocks.map.get? b.reference = some b

namespace Universe
variable {c : Committee} {U : Universe c} {dag : DagState}

/-- A sound DAG over the committee, with blocks of the universe. -/
structure Drawn (U : Universe c) (dag : DagState) : Prop where
  committee : dag.committee = c
  sound : dag.Sound
  has : ∀ {b}, dag.Stores b → U.Has b
  top : 0 < dag.highestAcceptedRound → ∃ b, dag.Stores b ∧ b.round = dag.highestAcceptedRound

theorem drawn_new (sha3 : List UInt8 → BlockDigest) (U : Universe c) : U.Drawn (DagState.new sha3 c) where
  committee := rfl
  sound := DagState.sound_new sha3 c
  has h := by cases h
  top h := absurd h (lt_irrefl _)

theorem stores_acceptBlock {b x : VerifiedBlock} :
    (dag.acceptBlock x).Stores b ↔ if b.reference = x.reference then x = b else dag.Stores b := by
  have hget : (dag.acceptBlock x).blocks.map.get? b.reference =
      if b.reference = x.reference then some x else dag.blocks.map.get? b.reference :=
    BlockStore.get?_insert ..
  unfold DagState.Stores
  rw [hget]
  split_ifs
  · rw [Option.some.injEq]
  · rfl

theorem Drawn.stores_acceptBlock_iff (h : U.Drawn dag) {x : VerifiedBlock} (hx : U.Has x) {b : VerifiedBlock} :
    (dag.acceptBlock x).Stores b ↔ b = x ∨ dag.Stores b := by
  rw [stores_acceptBlock]
  split_ifs with href
  · constructor
    · exact fun heq => .inl heq.symm
    · intro hb
      rcases hb with rfl | hb
      · rfl
      · exact hx.eq (h.has hb) href.symm
  · exact ⟨.inr, fun hb => hb.resolve_left fun heq => href (congrArg _ heq)⟩

theorem Drawn.acceptBlock (h : U.Drawn dag) {x : VerifiedBlock} (hx : U.Has x)
    (hanc : dag.HasAncestors x) : U.Drawn (dag.acceptBlock x) where
  committee := h.committee
  sound := h.sound.acceptBlock hanc fun _ => hx.lower
  has hb := by
    rcases (h.stores_acceptBlock_iff hx).mp hb with rfl | hb
    · exact hx
    · exact h.has hb
  top hpos := by
    have hmax : (dag.acceptBlock x).highestAcceptedRound =
        if dag.highestAcceptedRound < x.round then x.round else dag.highestAcceptedRound := rfl
    rw [hmax] at hpos ⊢
    split_ifs at hpos ⊢ with hlt
    · exact ⟨x, (h.stores_acceptBlock_iff hx).mpr (.inl rfl), rfl⟩
    · obtain ⟨b, hb, hround⟩ := h.top hpos
      exact ⟨b, (h.stores_acceptBlock_iff hx).mpr (.inr hb), hround⟩

/-- **Feeding** blocks of the universe in causal order keeps the DAG drawn from it, and
adds exactly them. -/
theorem Drawn.acceptBlocks (h : U.Drawn dag) {l : List VerifiedBlock} (hl : ∀ x ∈ l, U.Has x)
    (hcausal : dag.CausalOrder l) :
    U.Drawn (dag.acceptBlocks l) ∧ ∀ b, (dag.acceptBlocks l).Stores b ↔ b ∈ l ∨ dag.Stores b := by
  induction l generalizing dag with
  | nil => exact ⟨h, fun b => by simp [DagState.acceptBlocks]⟩
  | cons x rest ih =>
    have hx := hl x (List.mem_cons_self ..)
    obtain ⟨hdrawn, hstores⟩ := ih (h.acceptBlock hx hcausal.1)
      (fun y hy => hl y (List.mem_cons_of_mem _ hy)) hcausal.2
    refine ⟨hdrawn, fun b => ?_⟩
    rw [DagState.acceptBlocks_cons, hstores, h.stores_acceptBlock_iff hx, List.mem_cons]
    tauto

/-! ### Votes, certificates and histories in the store -/

theorem stores_of_getBlock {r : BlockRef} {b : VerifiedBlock} (hpos : 0 < r.round)
    (h : dag.getBlock r = some b) : dag.Stores b := by
  rcases Option.or_eq_some_iff.mp h with hb | ⟨-, hb⟩
  · rw [DagState.Stores, DagState.blocks_reference hb]
    exact hb
  · exact absurd (dag.genesis_round r b hb) hpos.ne'

theorem Drawn.getBlock_eq (h : U.Drawn dag) {r : BlockRef} (hpos : 0 < r.round)
    (hr : dag.containsBlock r = true) : dag.getBlock r = U.block r := by
  obtain ⟨b, hb⟩ := DagState.containsBlock_iff.mp hr
  have hhas := h.has (stores_of_getBlock hpos hb)
  rw [Has, DagState.getBlock_reference hb] at hhas
  rw [hb, hhas]

/-- A block of round 0 lists nothing, so it supports nothing. -/
theorem supports_of_round_zero {v : VerifiedBlock} (hlower : ∀ a ∈ v.ancestors, a.round < v.round)
    (hround : v.round = 0) (leader : BlockRef) : v.supports leader = false := by
  have hnil : v.ancestors = [] := by
    rw [List.eq_nil_iff_forall_not_mem]
    intro a ha
    have := hlower a ha
    rw [hround] at this
    exact Nat.not_lt_zero _ this
  rw [VerifiedBlock.supports, hnil]
  rfl

theorem Drawn.votesFor_eq (h : U.Drawn dag) {d : VerifiedBlock} (hd : dag.Stores d) {r : BlockRef}
    (hr : r ∈ d.ancestors) (leader : BlockRef) :
    votesFor dag.getBlock leader r = votesFor U.block leader r := by
  rcases Nat.eq_zero_or_pos r.round with hzero | hpos
  · have hdag : votesFor dag.getBlock leader r = false := by
      unfold votesFor
      cases hv : dag.getBlock r with
      | none => rfl
      | some v =>
        refine supports_of_round_zero (h.sound.lower hv) ?_ leader
        rw [← VerifiedBlock.reference_round, DagState.getBlock_reference hv, hzero]
    have huniverse : votesFor U.block leader r = false := by
      unfold votesFor
      cases hv : U.block r with
      | none => rfl
      | some v =>
        refine supports_of_round_zero (U.lower hv) ?_ leader
        rw [← VerifiedBlock.reference_round, U.keyed hv, hzero]
    rw [hdag, huniverse]
  · have hstored := h.sound.closed _ d (DagState.getBlock_of_blocks hd) r hr hpos
    rw [votesFor, votesFor, h.getBlock_eq hpos hstored]

theorem Drawn.certifies_iff (h : U.Drawn dag) {d : VerifiedBlock} (hd : dag.Stores d) {leader : BlockRef} :
    Certifies c dag.getBlock leader d ↔ Certifies c U.block leader d := by
  have hvoters : voters dag.getBlock leader d = voters U.block leader d := by
    rw [voters, voters, List.filter_congr fun r hr => h.votesFor_eq hd hr leader]
  rw [Certifies, Certifies, hvoters]

theorem Drawn.unequivocal (h : U.Drawn dag) : dag.Unequivocal := by
  intro b b' d d' hb hb' hd hd' hslot hround hround' hcert hcert'
  have hdpos : 0 < d.reference.round := by
    rw [VerifiedBlock.reference_round, hround]
    exact Nat.succ_pos _
  have hdpos' : 0 < d'.reference.round := by
    rw [VerifiedBlock.reference_round, hround']
    exact Nat.succ_pos _
  have hstores := stores_of_getBlock hdpos hd
  have hstores' := stores_of_getBlock hdpos' hd'
  rw [h.committee, h.certifies_iff hstores] at hcert
  rw [h.committee, h.certifies_iff hstores'] at hcert'
  have href : b.reference = b'.reference :=
    certifies_unique hslot (h.has hstores) (h.has hstores') hround hround' hcert hcert'
  rw [href, hb'] at hb
  exact (Option.some.inj hb).symm

/-- What a stored block lists in the universe is stored. -/
theorem Drawn.lists (h : U.Drawn dag) {a b : VerifiedBlock} (ha : dag.Stores a) (hpos : 0 < b.round)
    (hlists : Lists U.block a b) : dag.Stores b ∧ Lists dag.getBlock a b := by
  obtain ⟨r, hr, hb⟩ := hlists
  have hround : 0 < r.round := by rwa [← U.keyed hb]
  have hstored := h.sound.closed _ a (DagState.getBlock_of_blocks ha) r hr hround
  rw [← h.getBlock_eq hround hstored] at hb
  exact ⟨stores_of_getBlock hround hb, r, hr, hb⟩

theorem Drawn.reaches_of_universe (h : U.Drawn dag) {a d : VerifiedBlock} (ha : dag.Stores a)
    (hpos : 0 < d.round) (hreach : Reaches U.block a d) : dag.Stores d ∧ Reaches dag.getBlock a d := by
  induction hreach with
  | single hlists =>
    obtain ⟨hd, hlists⟩ := h.lists ha hpos hlists
    exact ⟨hd, .single hlists⟩
  | @tail x d hreach hlists ih =>
    obtain ⟨r, hr, hd⟩ := hlists
    have hx : U.Has x := by
      cases hreach with
      | single hlists => exact Lists.has hlists
      | tail _ hlists => exact Lists.has hlists
    have hlt : d.round < x.round := by
      have := hx.lower hr
      rwa [← U.keyed hd] at this
    obtain ⟨hx, hreach⟩ := ih (Nat.zero_lt_of_lt hlt)
    obtain ⟨hd, hlists⟩ := h.lists hx hpos ⟨r, hr, hd⟩
    exact ⟨hd, hreach.tail hlists⟩

theorem Drawn.reaches_to_universe (h : U.Drawn dag) {a d : VerifiedBlock} (ha : dag.Stores a)
    (hpos : 0 < d.round) (hreach : Reaches dag.getBlock a d) : Reaches U.block a d := by
  have hstep : ∀ {x y : VerifiedBlock}, dag.Stores x → 0 < y.round → Lists dag.getBlock x y →
      Lists U.block x y ∧ dag.Stores y := by
    intro x y hx hy hlists
    obtain ⟨r, hr, hget⟩ := hlists
    have hround : 0 < r.round := by rwa [← DagState.getBlock_reference hget]
    refine ⟨⟨r, hr, ?_⟩, stores_of_getBlock hround hget⟩
    rwa [← h.getBlock_eq hround (DagState.containsBlock_of_getBlock hget)]
  revert ha
  induction hreach using Relation.TransGen.head_induction_on with
  | single hlists => exact fun ha => .single (hstep ha hpos hlists).1
  | @head a x hlists hreach ih =>
    intro ha
    have hx : dag.getBlock x.reference = some x := by
      obtain ⟨r, -, hget⟩ := hlists
      rwa [DagState.getBlock_reference hget]
    have hxpos : 0 < x.round := Nat.zero_lt_of_lt (h.sound.descending.reaches_lt hx hreach)
    obtain ⟨hlists, hstored⟩ := hstep ha hxpos hlists
    exact .head hlists (ih hstored)

/-! ### The wave rule of the universe -/

/-- A block of the wave's leader slot. -/
def IsLeader (U : Universe c) (w : WaveNumber) (b : VerifiedBlock) : Prop :=
  0 < w ∧ U.Has b ∧ b.slot = leaderSlot c w

theorem IsLeader.round {w : WaveNumber} {b : VerifiedBlock} (h : U.IsLeader w b) : b.round = 3 * w :=
  congrArg Slot.round h.2.2

/-- A leader is certified by some decision block, and seen by those that have such a block
in their history. -/
def rule (U : Universe c) : WaveRule VerifiedBlock where
  leader := U.IsLeader
  certificate w b := U.IsLeader w b ∧
    ∃ d, U.Has d ∧ d.round = 3 * w + 2 ∧ Certifies c U.block b.reference d
  seen a w b := U.IsLeader w b ∧
    ∃ d, U.Has d ∧ d.round = 3 * w + 2 ∧ Reaches U.block a d ∧ Certifies c U.block b.reference d
  seen_leader h := h.1
  seen_certificate h := by
    obtain ⟨hleader, d, hd, hround, -, hcert⟩ := h
    exact ⟨hleader, d, hd, hround, hcert⟩
  unique := by
    intro w b b' h h'
    obtain ⟨hleader, d, hd, hround, hcert⟩ := h
    obtain ⟨hleader', d', hd', hround', hcert'⟩ := h'
    rw [← hleader.round] at hround hround'
    exact hleader.2.1.eq hleader'.2.1
      (certifies_unique (hleader.2.2.trans hleader'.2.2.symm) hd hd' hround hround' hcert hcert')

/-- Among the blocks of `S`, a quorum of authors has one of the round that satisfies `P`. -/
def Backed (c : Committee) (S : VerifiedBlock → Prop) (round : Round) (P : VerifiedBlock → Prop) : Prop :=
  ∃ A, c.Quorum A ∧ ∀ i ∈ A, ∃ b, S b ∧ b.author = i ∧ b.round = round ∧ P b

theorem backed_congr {S : VerifiedBlock → Prop} {round : Round} {P Q : VerifiedBlock → Prop}
    (hPQ : ∀ b, S b → (P b ↔ Q b)) : Backed c S round P ↔ Backed c S round Q := by
  refine exists_congr fun A => and_congr_right fun _ => forall_congr' fun i => imp_congr_right fun _ =>
    exists_congr fun b => and_congr_right fun hb => ?_
  rw [hPQ b hb]

theorem Backed.mono {S S' : VerifiedBlock → Prop} (hS : ∀ b, S b → S' b) {round : Round}
    {P : VerifiedBlock → Prop} (h : Backed c S round P) : Backed c S' round P := by
  obtain ⟨A, hA, hP⟩ := h
  refine ⟨A, hA, fun i hi => ?_⟩
  obtain ⟨b, hb, hrest⟩ := hP i hi
  exact ⟨b, hS b hb, hrest⟩

/-- The quorum a stake aggregator finds among the blocks of a round. -/
theorem backed_iff {S : VerifiedBlock → Prop} {round : Round} {l : List VerifiedBlock}
    (hl : ∀ b, b ∈ l ↔ S b ∧ b.round = round) {p : VerifiedBlock → Bool} :
    c.Quorum ((l.filter p).map VerifiedBlock.author).toFinset ↔ Backed c S round fun b => p b = true := by
  have hmem : ∀ i, i ∈ ((l.filter p).map VerifiedBlock.author).toFinset ↔
      ∃ b, S b ∧ b.author = i ∧ b.round = round ∧ p b = true := by
    intro i
    rw [List.mem_toFinset, List.mem_map]
    refine exists_congr fun b => ?_
    rw [List.mem_filter, hl]
    tauto
  constructor
  · exact fun h => ⟨_, h, fun i hi => (hmem i).mp hi⟩
  · intro h
    obtain ⟨A, hA, hP⟩ := h
    exact hA.mono fun i hi => (hmem i).mpr (hP i hi)

/-- What the blocks of `S` decide directly. A wave is not looked at before a block of its
decision round or a later one is there. -/
def view (U : Universe c) (hclosed : U.Closed) (hparents : U.QuorumParents) (S : VerifiedBlock → Prop)
    (hS : ∀ b, S b → U.Has b) : WaveRule.View U.rule where
  skips w := 0 < w ∧ (∃ d, S d ∧ 3 * w + 2 ≤ d.round) ∧
    Backed c S (3 * w + 1) fun b => b.blames (leaderSlot c w).authority = true
  commits w b := (0 < w ∧ S b ∧ b.slot = leaderSlot c w) ∧
    Backed c S (3 * w + 2) fun d => Certifies c U.block b.reference d
  commits_leader h := ⟨h.1.1, hS _ h.1.2.1, h.1.2.2⟩
  commits_certificate h := by
    obtain ⟨⟨hw, hb, hslot⟩, A, hA, hcert⟩ := h
    obtain ⟨i, hi⟩ := hA.nonempty
    obtain ⟨d, hd, -, hround, hcert⟩ := hcert i hi
    exact ⟨⟨hw, hS _ hb, hslot⟩, d, hS d hd, hround, hcert⟩
  skips_certificate := by
    intro w b hskip hcert
    obtain ⟨-, -, A, hA, hblame⟩ := hskip
    obtain ⟨hleader, d, hd, hround, hcert⟩ := hcert
    have hauthor : b.reference.author = (leaderSlot c w).authority := congrArg Slot.authority hleader.2.2
    have hrounds : b.reference.round = 3 * w := hleader.round
    refine not_certifies_of_blame hA (fun i hi => ?_) hd (hrounds ▸ hround) hcert
    obtain ⟨x, hx, hxi, hxround, hxblame⟩ := hblame i hi
    refine ⟨x, hS x hx, hxi, hrounds ▸ hxround, ?_⟩
    rwa [hauthor]
  commits_seen := by
    intro w b a A hcommit hlt hleader
    obtain ⟨⟨hw, hb, hslot⟩, Q, hQ, hcert⟩ := hcommit
    have habove : 3 * w + 2 < A.round := by
      have harith : ∀ n m : Nat, n < m → 3 * n + 2 < 3 * m := by omega
      rw [hleader.round]
      exact harith w a hlt
    have hpos : 0 < 3 * w + 2 := Nat.succ_pos _
    obtain ⟨d, hd, hround, hdcert, hreach⟩ := exists_reached hclosed hparents hpos hQ
      (fun i hi => by
        obtain ⟨x, hx, hrest⟩ := hcert i hi
        exact ⟨x, hS x hx, hrest⟩) hleader.2.1 habove
    exact ⟨⟨hw, hS b hb, hslot⟩, d, hd, hround, hreach, hdcert⟩

/-- More blocks decide at least as much, and the same. -/
theorem view_mono {hclosed : U.Closed} {hparents : U.QuorumParents} {S S' : VerifiedBlock → Prop}
    {hS : ∀ b, S b → U.Has b} {hS' : ∀ b, S' b → U.Has b} (hsub : ∀ b, S b → S' b) {w : ℕ}
    {v : Option VerifiedBlock} (h : WaveRule.Decided (U.view hclosed hparents S hS) w v) :
    WaveRule.Decided (U.view hclosed hparents S' hS') w v := by
  refine h.mono (fun w hskip => ?_) (fun w b hcommit => ?_)
  · obtain ⟨hpos, ⟨d, hd, hround⟩, hblame⟩ := hskip
    exact ⟨hpos, ⟨d, hsub d hd, hround⟩, hblame.mono hsub⟩
  · obtain ⟨⟨hpos, hb, hslot⟩, hcert⟩ := hcommit
    exact ⟨⟨hpos, hsub b hb, hslot⟩, hcert.mono hsub⟩

/-- A decided wave has its decision round, or a later one, in sight. -/
theorem open_of_decided {hclosed : U.Closed} {hparents : U.QuorumParents} {S : VerifiedBlock → Prop}
    {hS : ∀ b, S b → U.Has b} {w : ℕ} {v : Option VerifiedBlock}
    (h : WaveRule.Decided (U.view hclosed hparents S hS) w v) : 0 < w → ∃ d, S d ∧ 3 * w + 2 ≤ d.round := by
  have hlater : ∀ {w a : ℕ}, w < a → (∃ d, S d ∧ 3 * a + 2 ≤ d.round) → ∃ d, S d ∧ 3 * w + 2 ≤ d.round := by
    intro w a hlt hd
    obtain ⟨d, hd, hle⟩ := hd
    have harith : 3 * w + 2 ≤ 3 * a + 2 := by omega
    exact ⟨d, hd, harith.trans hle⟩
  induction h with
  | skip hskip => exact fun _ => hskip.2.1
  | commit hcommit =>
    intro _
    obtain ⟨-, A, hA, hcert⟩ := hcommit
    obtain ⟨i, hi⟩ := hA.nonempty
    obtain ⟨d, hd, -, hround, -⟩ := hcert i hi
    exact ⟨d, hd, hround.ge⟩
  | seen hlt _ _ _ ih _ => exact fun hw => hlater hlt (ih (hw.trans hlt))
  | unseen hlt _ _ _ ih _ => exact fun hw => hlater hlt (ih (hw.trans hlt))

/-! ### The pass decides the view -/

section Pass
variable (h : U.Drawn dag) {k : Nat} (hcommitted : ∀ r ∈ dag.committed, r.round ≤ 3 * k)

include hcommitted in
/-- Above the last decided wave every stored block counts. -/
theorem mem_blocksAtRound {round : Round} (habove : 3 * k < round) (hround : round + 1 < u32Size)
    {b : VerifiedBlock} : b ∈ dag.getUncommittedBlocksAtRound round ↔ dag.Stores b ∧ b.round = round := by
  rw [DagState.mem_getUncommittedBlocksAtRound hround]
  constructor
  · exact fun hb => ⟨hb.1, hb.2.1⟩
  · intro hb
    refine ⟨hb.1, hb.2, fun hmem => ?_⟩
    have hle : b.round ≤ 3 * k := hcommitted _ hmem
    rw [hb.2] at hle
    exact Nat.not_lt_of_le hle habove

variable {w : Nat} (hkw : k < w) (hw : 3 * w + 2 ≤ dag.highestAcceptedRound)

include h hcommitted hkw hw in
theorem mem_blocksAtSlot {b : VerifiedBlock} :
    b ∈ dag.getUncommittedBlocksAtSlot (leaderSlot dag.committee w) ↔
      dag.Stores b ∧ b.slot = leaderSlot dag.committee w := by
  rw [DagState.mem_leaderBlocks (hw.trans_lt h.sound.highest_lt)]
  constructor
  · exact fun hb => ⟨hb.1, hb.2.1⟩
  · intro hb
    refine ⟨hb.1, hb.2, fun hmem => ?_⟩
    have hle : b.round ≤ 3 * k := hcommitted _ hmem
    rw [show b.round = 3 * w from congrArg Slot.round hb.2] at hle
    have harith : ¬ 3 * w ≤ 3 * k := by omega
    exact harith hle

include h hcommitted hkw hw in
theorem enoughLeaderBlame_iff :
    dag.enoughLeaderBlame (3 * w + 1) (leaderSlot dag.committee w).authority = true ↔
      Backed c dag.Stores (3 * w + 1) fun b => b.blames (leaderSlot c w).authority = true := by
  have hlt := DagState.decision_lt (hw.trans_lt h.sound.highest_lt)
  have hround : 3 * w + 1 + 1 < u32Size := Nat.lt_of_succ_lt hlt
  have habove : 3 * k < 3 * w + 1 := by omega
  rw [DagState.enoughLeaderBlame, StakeAggregator.addAll_spec, h.committee]
  exact backed_iff fun b => mem_blocksAtRound hcommitted habove hround

include h hcommitted hkw hw in
theorem certifiers_iff {leader : BlockRef} :
    dag.committee.Quorum (dag.certifiers leader (3 * w + 2)) ↔
      Backed c dag.Stores (3 * w + 2) fun d => Certifies c U.block leader d := by
  have habove : 3 * k < 3 * w + 2 := by omega
  have hquorum := @backed_iff c dag.Stores (3 * w + 2) (dag.getUncommittedBlocksAtRound (3 * w + 2))
    (fun b => mem_blocksAtRound hcommitted habove (DagState.decision_lt (hw.trans_lt h.sound.highest_lt)))
    fun d => decide (Certifies dag.committee dag.getBlock leader d)
  have hcert : ∀ d, dag.Stores d → (decide (Certifies dag.committee dag.getBlock leader d) = true ↔
      Certifies c U.block leader d) := by
    intro d hd
    rw [decide_eq_true_iff, h.committee, h.certifies_iff hd]
  rw [backed_congr hcert] at hquorum
  rw [← hquorum, ← h.committee]
  rfl

variable (hclosed : U.Closed) (hparents : U.QuorumParents)

include hcommitted hkw hw in
/-- The direct status of a wave is what the view decides directly. -/
theorem directStatus_iff :
    (∀ v, dag.directStatus w = some v →
      v = none ∧ (U.view hclosed hparents dag.Stores fun _ => h.has).skips w ∨
      ∃ b, v = some b ∧ (U.view hclosed hparents dag.Stores fun _ => h.has).commits w b) ∧
    ((U.view hclosed hparents dag.Stores fun _ => h.has).skips w → dag.directStatus w ≠ none) ∧
    ∀ b, (U.view hclosed hparents dag.Stores fun _ => h.has).commits w b → dag.directStatus w ≠ none := by
  have hpos : 0 < w := Nat.zero_lt_of_lt hkw
  have hsight : ∃ d, dag.Stores d ∧ 3 * w + 2 ≤ d.round := by
    obtain ⟨d, hd, hround⟩ := h.top (Nat.lt_of_lt_of_le (Nat.succ_pos _) hw)
    exact ⟨d, hd, hround ▸ hw⟩
  have hblame := enoughLeaderBlame_iff h hcommitted hkw hw
  have hsupported : ∀ b, b ∈ dag.supportedLeaders w ↔
      (U.view hclosed hparents dag.Stores fun _ => h.has).commits w b := by
    intro b
    rw [DagState.supportedLeaders, List.mem_filter, mem_blocksAtSlot h hcommitted hkw hw, decide_eq_true_iff,
      certifiers_iff h hcommitted hkw hw, h.committee]
    show _ ↔ (0 < w ∧ dag.Stores b ∧ b.slot = leaderSlot c w) ∧ _
    simp only [hpos, true_and]
  unfold DagState.directStatus
  split_ifs with hskip
  · refine ⟨fun v hv => .inl ⟨(Option.some.inj hv).symm, hpos, hsight, hblame.mp hskip⟩, ?_, ?_⟩
    · exact fun _ => Option.some_ne_none _
    · exact fun _ _ => Option.some_ne_none _
  · refine ⟨fun v hv => ?_, fun hskips => absurd (hblame.mpr hskips.2.2) hskip, fun b hb hnone => ?_⟩
    · obtain ⟨b, hb, hvb⟩ := Option.map_eq_some_iff.mp hv
      exact .inr ⟨b, hvb.symm, (hsupported b).mp (List.mem_of_head? hb)⟩
    · rw [Option.map_eq_none_iff, List.head?_eq_none_iff] at hnone
      have hmem := (hsupported b).mpr hb
      rw [hnone] at hmem
      cases hmem

include h hcommitted hkw hw in
/-- What a stored anchor has seen is the same in the store and in the universe. -/
theorem seenLeader_iff {anchor b : VerifiedBlock} (hanchor : dag.Stores anchor) :
    dag.seenLeader anchor w = some b ↔ U.rule.seen anchor w b := by
  have hpos : 0 < w := Nat.zero_lt_of_lt hkw
  have hdpos : ∀ {d : VerifiedBlock}, d.round = 3 * w + 2 → 0 < d.round :=
    fun hround => hround ▸ Nat.succ_pos _
  rw [(DagState.seenLeader_spec h.sound h.unequivocal (hw.trans_lt h.sound.highest_lt) anchor).2, mem_blocksAtSlot h hcommitted hkw hw]
  constructor
  · intro hseen
    obtain ⟨⟨hb, hslot⟩, d, hd, hround, hreach, hcert⟩ := hseen
    have hstored := stores_of_getBlock (hdpos hround) hd
    rw [h.committee] at hslot hcert
    refine ⟨⟨hpos, h.has hb, hslot⟩, d, h.has hstored, hround, ?_, (h.certifies_iff hstored).mp hcert⟩
    exact h.reaches_to_universe hanchor (hdpos hround) hreach
  · intro hseen
    obtain ⟨hleader, d, -, hround, hreach, hcert⟩ := hseen
    obtain ⟨hstored, hreach⟩ := h.reaches_of_universe hanchor (hdpos hround) hreach
    have hb : dag.Stores b := by
      -- some vote for `b` is listed by `d`, and lists `b` in turn
      obtain ⟨i, hi⟩ := hcert.nonempty
      obtain ⟨r, hr, -, v, hv, hsupports⟩ := mem_voters.mp hi
      have hvround : 0 < v.round :=
        Nat.zero_lt_of_lt ((has_of_block hv).lower (VerifiedBlock.supports_mem hsupports))
      have hbround : 0 < b.round := by
        rw [hleader.round]
        exact Nat.mul_pos (by decide) hpos
      obtain ⟨hvstored, -⟩ := h.lists hstored hvround ⟨r, hr, hv⟩
      exact (h.lists hvstored hbround ⟨_, VerifiedBlock.supports_mem hsupports, hleader.2.1⟩).1
    rw [← h.certifies_iff hstored, ← h.committee] at hcert
    have hslot := hleader.2.2
    rw [← h.committee] at hslot
    exact ⟨⟨hb, hslot⟩, d, DagState.getBlock_of_blocks hstored, hround, hreach, hcert⟩

end Pass

/-- **The pass decides the view.** Above the last decided wave, the statuses up to the last
open wave are exactly the decisions of the stored blocks. -/
theorem statuses_matches (h : U.Drawn dag) (hclosed : U.Closed) (hparents : U.QuorumParents) {k : Nat}
    (hcommitted : ∀ r ∈ dag.committed, r.round ≤ 3 * k) {w n : Nat} (hkw : k < w)
    (hlast : dag.lastWave < w + n)
    (hopen : ∀ x : Nat, w ≤ x → x < w + n → 3 * x + 2 ≤ dag.highestAcceptedRound) :
    WaveRule.Matches (U.view hclosed hparents dag.Stores fun _ => h.has) w (dag.statuses w n) := by
  induction n generalizing w with
  | zero =>
    intro i v
    refine ⟨fun hv => (by cases hv), fun hdec => ?_⟩
    obtain ⟨d, hd, hround⟩ := open_of_decided hdec (by omega)
    have hle : 3 * (w + i) + 2 ≤ dag.highestAcceptedRound := hround.trans (h.sound.highest hd)
    have harith : ∀ x m : Nat, (m - 2) / 3 < x → ¬ 3 * x + 2 ≤ m := by omega
    exact absurd hle (harith _ _ (Nat.lt_of_lt_of_le hlast (Nat.le_add_right ..)))
  | succ n ih =>
    have hw := hopen w le_rfl (Nat.lt_add_of_pos_right (Nat.succ_pos n))
    have hopen' : ∀ x : Nat, w + 1 ≤ x → x < w + 1 + n → 3 * x + 2 ≤ dag.highestAcceptedRound :=
      fun x hx hlt => hopen x (by omega) (by omega)
    have hlast' : dag.lastWave < w + 1 + n := by rwa [Nat.add_assoc, Nat.add_comm 1 n]
    have hlater := ih (Nat.lt_succ_of_lt hkw) hlast' hopen'
    refine WaveRule.Matches.cons (fun v => ?_) hlater
    obtain ⟨hdirect, hskips, hcommits⟩ := directStatus_iff h hcommitted hkw hw hclosed hparents
    refine hlater.status hdirect hskips hcommits (fun anchor b hanchor => ?_) v
    obtain ⟨a, hle, hdec, -⟩ := hlater.anchor_eq_some.mp hanchor
    -- the anchor is one of the statuses, so it is stored
    have hstatus := (hlater (a - (w + 1)) (some anchor)).mpr (by rwa [Nat.add_sub_cancel' hle])
    obtain ⟨hmem, hopen_a⟩ := DagState.mem_of_statuses h.sound h.unequivocal hopen' hstatus
    have hstored := ((DagState.mem_leaderBlocks (hopen_a.trans_lt h.sound.highest_lt)).mp hmem).1
    exact seenLeader_iff h hcommitted hkw hw hstored

end Universe

end DualOptimistic.Consensus
