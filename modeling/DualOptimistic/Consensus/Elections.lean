import DualOptimistic.Consensus.DecisionPass

/-! What a decision rests on, whatever the store.

A pass that returns has panicked nowhere, so its decisions can be traced back: the decided
waves follow the last one without a gap, and a committed leader sits in its slot and has a
quorum of votes listed by some stored block of the decision round or below
(`tryDecide_ok`). Nothing is assumed of the blocks here. -/
namespace DualOptimistic.Consensus
open Data

namespace DagState
variable {dag : DagState}

/-! ### Certificates -/

/-- The block lists votes for the leader by a quorum of authors. -/
def CertifiedBy (dag : DagState) (leader d : VerifiedBlock) : Prop :=
  ∃ A, dag.committee.Quorum A ∧
    ∀ i ∈ A, ∃ r ∈ d.ancestors, r.author = i ∧ dag.refIsVote leader r = .ok true

/-- The cache holds answers of `refIsVote`. -/
def Answered (dag : DagState) (leader : VerifiedBlock) (allVotes : OrdMap BlockRef Bool) : Prop :=
  ∀ r vote, allVotes.get? r = some vote → dag.refIsVote leader r = .ok vote

theorem answered_empty (leader : VerifiedBlock) : dag.Answered leader ∅ := by
  intro r vote h
  cases h

/-- One turn of the loop that returns: the vote is asked of the cache or of the store, and the cache
keeps to the store. -/
theorem countVotes_cons_ok {leader : VerifiedBlock} {r : BlockRef} {rest : List BlockRef}
    {votesStake : StakeAggregator} {allVotes : OrdMap BlockRef Bool} {result : Bool × OrdMap BlockRef Bool}
    (hrun : dag.countVotes leader (r :: rest) votesStake allVotes = .ok result)
    (hcache : dag.Answered leader allVotes) :
    ∃ vote allVotes', dag.refIsVote leader r = .ok vote ∧ dag.Answered leader allVotes' ∧
      (if vote = true then
        if (votesStake.add r.author dag.committee).1 then .ok (true, allVotes')
        else dag.countVotes leader rest (votesStake.add r.author dag.committee).2 allVotes'
      else dag.countVotes leader rest votesStake allVotes') = .ok result := by
  rw [countVotes] at hrun
  cases hget : allVotes.get? r with
  | some cached =>
    rw [hget] at hrun
    exact ⟨cached, allVotes, hcache r cached hget, hcache, hrun⟩
  | none =>
    rw [hget] at hrun
    obtain ⟨vote, hvote, hrun⟩ := except_bind_ok_iff.mp hrun
    refine ⟨vote, allVotes.insert r vote, hvote, fun x v hx => ?_, hrun⟩
    rw [OrdMap.get?_insert] at hx
    split_ifs at hx with hxr
    · rw [hxr, hvote, Option.some.inj hx]
    · exact hcache x v hx

theorem countVotes_ok {leader : VerifiedBlock} {refs : List BlockRef} {votesStake : StakeAggregator}
    {allVotes allVotes' : OrdMap BlockRef Bool} {certificate : Bool}
    (hrun : dag.countVotes leader refs votesStake allVotes = .ok (certificate, allVotes'))
    (hcounts : StakeAggregator.Counts dag.committee votesStake) (hcache : dag.Answered leader allVotes) :
    dag.Answered leader allVotes' ∧ (certificate = true → ∃ A, dag.committee.Quorum A ∧
      ∀ i ∈ A, i ∈ votesStake.votes ∨ ∃ r ∈ refs, r.author = i ∧ dag.refIsVote leader r = .ok true) := by
  induction refs generalizing votesStake allVotes with
  | nil =>
    obtain ⟨rfl, rfl⟩ := Prod.mk.inj (Except.ok.inj hrun)
    exact ⟨hcache, fun h => absurd h Bool.false_ne_true⟩
  | cons r rest ih =>
    obtain ⟨vote, allVotes₁, hvote, hcache₁, hstep⟩ := countVotes_cons_ok hrun hcache
    have hlater : ∀ {i}, (∃ x ∈ rest, x.author = i ∧ dag.refIsVote leader x = .ok true) →
        ∃ x ∈ r :: rest, x.author = i ∧ dag.refIsVote leader x = .ok true := by
      intro i h
      obtain ⟨x, hx, hrest⟩ := h
      exact ⟨x, List.mem_cons_of_mem _ hx, hrest⟩
    have hvoter : vote = true → ∀ i ∈ insert r.author votesStake.votes,
        i ∈ votesStake.votes ∨ ∃ x ∈ r :: rest, x.author = i ∧ dag.refIsVote leader x = .ok true := by
      intro hv i hi
      rcases Finset.mem_insert.mp hi with rfl | hi
      · exact .inr ⟨r, List.mem_cons_self .., rfl, by rw [hvote, hv]⟩
      · exact .inl hi
    split_ifs at hstep with hv hreached
    · obtain ⟨rfl, rfl⟩ := Prod.mk.inj (Except.ok.inj hstep)
      refine ⟨hcache₁, fun _ => ⟨_, ((StakeAggregator.add_eq_true hcounts _).mp hreached).2, hvoter hv⟩⟩
    · obtain ⟨hcache', hquorum⟩ := ih hstep (StakeAggregator.counts_add hcounts _) hcache₁
      refine ⟨hcache', fun hcert => ?_⟩
      obtain ⟨A, hA, hmem⟩ := hquorum hcert
      refine ⟨A, hA, fun i hi => ?_⟩
      rcases hmem i hi with hi | hi
      · rw [StakeAggregator.add_votes] at hi
        exact hvoter hv i hi
      · exact .inr (hlater hi)
    · obtain ⟨hcache', hquorum⟩ := ih hstep hcounts hcache₁
      refine ⟨hcache', fun hcert => ?_⟩
      obtain ⟨A, hA, hmem⟩ := hquorum hcert
      exact ⟨A, hA, fun i hi => (hmem i hi).imp id hlater⟩

theorem isCertificate_ok {d leader : VerifiedBlock} {allVotes allVotes' : OrdMap BlockRef Bool}
    {certificate : Bool} (hrun : dag.isCertificate d leader allVotes = .ok (certificate, allVotes'))
    (hcache : dag.Answered leader allVotes) :
    dag.Answered leader allVotes' ∧ (certificate = true → dag.CertifiedBy leader d) := by
  obtain ⟨hcache', hquorum⟩ := countVotes_ok hrun (StakeAggregator.counts_new _) hcache
  refine ⟨hcache', fun hcert => ?_⟩
  obtain ⟨A, hA, hmem⟩ := hquorum hcert
  exact ⟨A, hA, fun i hi => (hmem i hi).resolve_left (Finset.notMem_empty _)⟩

theorem anyCertificate_ok {leader : VerifiedBlock} {l : List VerifiedBlock} {allVotes : OrdMap BlockRef Bool}
    (hrun : dag.anyCertificate leader l allVotes = .ok true) (hcache : dag.Answered leader allVotes) :
    ∃ d ∈ l, dag.CertifiedBy leader d := by
  induction l generalizing allVotes with
  | nil => cases hrun
  | cons d rest ih =>
    obtain ⟨⟨certificate, allVotes'⟩, hcert, hrun⟩ := except_bind_ok_iff.mp hrun
    obtain ⟨hcache', hcertified⟩ := isCertificate_ok hcert hcache
    by_cases htrue : certificate = true
    · exact ⟨d, List.mem_cons_self .., hcertified htrue⟩
    · have hrest : dag.anyCertificate leader rest allVotes' = .ok true := by
        rwa [Bool.eq_false_of_not_eq_true htrue] at hrun
      obtain ⟨x, hx, hcertified⟩ := ih hrest hcache'
      exact ⟨x, List.mem_cons_of_mem _ hx, hcertified⟩

theorem countCertificates_ok {leader : VerifiedBlock} {l : List VerifiedBlock} {support : StakeAggregator}
    {allVotes : OrdMap BlockRef Bool} (hrun : dag.countCertificates leader l support allVotes = .ok true)
    (hcache : dag.Answered leader allVotes) : ∃ d ∈ l, dag.CertifiedBy leader d := by
  induction l generalizing support allVotes with
  | nil => cases hrun
  | cons d rest ih =>
    obtain ⟨⟨certificate, allVotes'⟩, hcert, hrun⟩ := except_bind_ok_iff.mp hrun
    obtain ⟨hcache', hcertified⟩ := isCertificate_ok hcert hcache
    by_cases htrue : certificate = true
    · exact ⟨d, List.mem_cons_self .., hcertified htrue⟩
    · have hrest : dag.countCertificates leader rest support allVotes' = .ok true := by
        rwa [Bool.eq_false_of_not_eq_true htrue] at hrun
      obtain ⟨x, hx, hcertified⟩ := ih hrest hcache'
      exact ⟨x, List.mem_cons_of_mem _ hx, hcertified⟩

/-! ### One wave -/

/-- A stored, uncommitted block of the wave's leader slot that some stored block, no higher
than the decision round, certifies. -/
def Elected (dag : DagState) (w : WaveNumber) (b : VerifiedBlock) : Prop :=
  (dag.blocks.map.get? b.reference = some b ∧ b.slot = leaderSlot dag.committee w ∧
      b.reference ∉ dag.committed) ∧
    ∃ d, dag.getBlock d.reference = some d ∧ d.round ≤ 3 * w + 2 ∧ dag.CertifiedBy b d

theorem mem_leaderSlot {w : WaveNumber} (hw : 3 * w + 2 + 1 < u32Size) {b : VerifiedBlock}
    (hb : b ∈ dag.getUncommittedBlocksAtSlot (leaderSlot dag.committee w)) :
    dag.blocks.map.get? b.reference = some b ∧ b.slot = leaderSlot dag.committee w ∧
      b.reference ∉ dag.committed := by
  have hle : 3 * w ≤ 3 * w + 2 + 1 := Nat.le_add_right (3 * w) 3
  exact (mem_getUncommittedBlocksAtSlot (hle.trans_lt hw)).mp hb

theorem mem_ancestorsAtRound {later d : VerifiedBlock} {earlier : Round} {l : List VerifiedBlock}
    (hrun : dag.ancestorsAtRound later earlier = .ok l) (hd : d ∈ l) :
    dag.getBlock d.reference = some d ∧ d.round ≤ earlier := by
  unfold ancestorsAtRound at hrun
  split at hrun
  · cases hrun
  · rename_i linked hlinked
    rw [← Except.ok.inj hrun] at hd
    obtain ⟨r, hr, hget⟩ := List.mem_filterMap.mp hd
    obtain ⟨⟨r', u⟩, hr', rfl⟩ := List.mem_map.mp hr
    have hdown : ∀ x y : BlockRef, y ≤ x → decide (x.round ≤ earlier) = true →
        decide (y.round ≤ earlier) = true := by
      intro x y hle hx
      rw [decide_eq_true_iff] at hx ⊢
      exact (BlockRef.round_le_of_le hle).trans hx
    have hmem : r' ∈ OrdSet.toList linked :=
      OrdSet.mem_toList.mpr (OrdMap.contains_iff.mpr ⟨u, (OrdMap.mem_range.mp hr').1⟩)
    have hround : r'.round ≤ earlier := of_decide_eq_true ((sweep_spec hdown hlinked r').mp hmem).1
    have href : d.reference = r' := getBlock_reference hget
    rw [← href] at hround hget
    exact ⟨hget, hround⟩

theorem tryDirectDecide_ok {w : WaveNumber} (hw : 3 * w + 2 + 1 < u32Size) {status : LeaderStatus}
    (hrun : dag.tryDirectDecide {} (leaderSlot dag.committee w) = .ok status) :
    ∃ s, status = .ofStatus (leaderSlot dag.committee w) s ∧ ∀ b, s = some (some b) → dag.Elected w b := by
  unfold tryDirectDecide at hrun
  split_ifs at hrun
  · exact ⟨some none, (Except.ok.inj hrun).symm, fun b hb => by cases hb⟩
  · obtain ⟨supported, hsupported, hrun⟩ := except_bind_ok_iff.mp hrun
    have hkept := filterOk_ok hsupported
    match supported with
    | [] => exact ⟨none, (Except.ok.inj hrun).symm, fun b hb => by cases hb⟩
    | [b] =>
      refine ⟨some (some b), (Except.ok.inj hrun).symm, fun b' hb' => ?_⟩
      obtain rfl : b = b' := Option.some.inj (Option.some.inj hb')
      obtain ⟨hslot, hsupport⟩ := hkept b (List.mem_singleton_self b)
      rw [decisionRound_eq] at hsupport
      obtain ⟨d, hd, hcert⟩ := countCertificates_ok hsupport (answered_empty b)
      obtain ⟨hget, hround, -⟩ := (mem_getUncommittedBlocksAtRound hw).mp hd
      exact ⟨mem_leaderSlot hw hslot, d, getBlock_of_blocks hget, hround.le, hcert⟩
    | _ :: _ :: _ => cases hrun

theorem decideLeaderFromAnchor_ok {w : WaveNumber} (hw : 3 * w + 2 + 1 < u32Size) {anchor : VerifiedBlock} {status : LeaderStatus}
    (hrun : dag.decideLeaderFromAnchor {} anchor (leaderSlot dag.committee w) = .ok status) :
    ∃ s, status = .ofStatus (leaderSlot dag.committee w) s ∧ ∀ b, s = some (some b) → dag.Elected w b := by
  obtain ⟨certs, hcerts, hrun⟩ := except_bind_ok_iff.mp hrun
  obtain ⟨certified, hcertified, hrun⟩ := except_bind_ok_iff.mp hrun
  rw [decisionRound_eq] at hcerts
  have hkept := filterOk_ok hcertified
  match certified with
  | [] => exact ⟨some none, (Except.ok.inj hrun).symm, fun b hb => by cases hb⟩
  | [b] =>
    refine ⟨some (some b), (Except.ok.inj hrun).symm, fun b' hb' => ?_⟩
    obtain rfl : b = b' := Option.some.inj (Option.some.inj hb')
    obtain ⟨hslot, hany⟩ := hkept b (List.mem_singleton_self b)
    obtain ⟨d, hd, hcert⟩ := anyCertificate_ok hany (answered_empty b)
    obtain ⟨hget, hround⟩ := mem_ancestorsAtRound hcerts hd
    exact ⟨mem_leaderSlot hw hslot, d, hget, hround, hcert⟩
  | _ :: _ :: _ => cases hrun

theorem tryIndirectDecide_ok {w : WaveNumber} (hw : 3 * w + 2 + 1 < u32Size) {leaders : List LeaderStatus} {status : LeaderStatus}
    (hrun : dag.tryIndirectDecide {} (leaderSlot dag.committee w) leaders = .ok status) :
    ∃ s, status = .ofStatus (leaderSlot dag.committee w) s ∧ ∀ b, s = some (some b) → dag.Elected w b := by
  induction leaders with
  | nil => exact ⟨none, (Except.ok.inj hrun).symm, fun b hb => by cases hb⟩
  | cons anchor rest ih =>
    rw [tryIndirectDecide.eq_def] at hrun
    dsimp only at hrun
    split_ifs at hrun
    · cases anchor with
      | commit anchorBlock => exact decideLeaderFromAnchor_ok hw hrun
      | skip slot => exact ih hrun
      | undecided slot => exact ⟨none, (Except.ok.inj hrun).symm, fun b hb => by cases hb⟩
    · exact ih hrun

theorem decideSlot_ok {w : WaveNumber} (hw : 3 * w + 2 + 1 < u32Size)
    {leaders : List (LeaderStatus × Decision)} {decided : LeaderStatus × Decision}
    (hrun : dag.decideSlot {} (leaderSlot dag.committee w) leaders = .ok decided) :
    ∃ s, decided.1 = .ofStatus (leaderSlot dag.committee w) s ∧
      ∀ b, s = some (some b) → dag.Elected w b := by
  obtain ⟨status, hdirect, hrun⟩ := except_bind_ok_iff.mp hrun
  by_cases hdecided : status.isDecided = true
  · have hres : (status, Decision.direct) = decided := by
      rw [if_pos hdecided] at hrun
      exact Except.ok.inj hrun
    rw [← hres]
    exact tryDirectDecide_ok hw hdirect
  · rw [if_neg hdecided] at hrun
    obtain ⟨status', hindirect, hrun⟩ := except_bind_ok_iff.mp hrun
    rw [← Except.ok.inj hrun]
    exact tryIndirectDecide_ok hw hindirect

/-! ### All open waves -/

/-- Committed statuses are of elected leaders. -/
def AllElected (dag : DagState) (w : WaveNumber) (statuses : List (Option (Option VerifiedBlock))) : Prop :=
  ∀ i b, statuses[i]? = some (some (some b)) → dag.Elected (w + i) b

theorem AllElected.cons {w : WaveNumber} {s : Option (Option VerifiedBlock)}
    {statuses : List (Option (Option VerifiedBlock))} (hs : ∀ b, s = some (some b) → dag.Elected w b)
    (h : dag.AllElected (w + 1) statuses) : dag.AllElected w (s :: statuses) := by
  intro i b hb
  cases i with
  | zero => exact hs b (Option.some.inj hb)
  | succ i =>
    have := h i b hb
    rwa [Nat.add_assoc, Nat.add_comm 1 i] at this

theorem decideRounds_ok {k M n : Nat} (hopen : ∀ x : Nat, k < x → x ≤ M → 3 * x + 2 + 1 < u32Size)
    (hn : (3 * k + n) / 3 ≤ M) {leaders leaders' : List (LeaderStatus × Decision)}
    {statuses : List (Option (Option VerifiedBlock))}
    (hleaders : leaders.map Prod.fst = label dag.committee ((3 * k + n) / 3 + 1) statuses)
    (helected : dag.AllElected ((3 * k + n) / 3 + 1) statuses)
    (hrun : dag.decideRounds [{}] (leaderSlot dag.committee k) (List.range' (3 * k) (n + 1)).reverse leaders =
      .ok leaders') :
    ∃ statuses', leaders'.map Prod.fst = label dag.committee (k + 1) statuses' ∧
      dag.AllElected (k + 1) statuses' := by
  induction n generalizing leaders statuses with
  | zero =>
    have hk : (3 * k + 0) / 3 = k := by omega
    rw [hk] at hleaders helected
    have hrun' : dag.decideRounds [{}] (leaderSlot dag.committee k) [3 * k] leaders = .ok leaders' := hrun
    rw [decideRounds, List.reverse_singleton, decideRound_last] at hrun'
    obtain rfl : leaders = leaders' := Except.ok.inj hrun'
    exact ⟨statuses, hleaders, helected⟩
  | succ n ih =>
    rw [rounds_down, decideRounds, List.reverse_singleton] at hrun
    rcases wave_of_round k n with ⟨w, hkw, hw, hdiv, hdiv'⟩ | ⟨hmod, hdiv⟩
    · rw [hdiv] at hn hleaders helected
      rw [hw] at hrun
      obtain ⟨res, hround, hrun⟩ := except_bind_ok_iff.mp hrun
      rw [decideRound_leader (leaderSlot_ne hkw)] at hround
      obtain ⟨decided, hslot, hround⟩ := except_bind_ok_iff.mp hround
      obtain rfl := Except.ok.inj hround
      obtain ⟨s, hs, hscert⟩ := decideSlot_ok (hopen w hkw hn) hslot
      refine @ih (by omega) _ (s :: statuses) ?_ ?_ hrun
      · rw [hdiv', List.map_cons, hleaders, hs]
        rfl
      · rw [hdiv']
        exact helected.cons hscert
    · rw [decideRound_between hmod] at hrun
      rw [hdiv] at hn hleaders helected
      exact ih hn hleaders helected hrun

/-- **A pass that returned** decided the waves after the last one without a gap, and
committed elected leaders only. -/
theorem tryDecide_ok (hhighest : dag.highestAcceptedRound < u32Size) {k : Nat} {decided : List DecidedLeader}
    (hrun : dag.tryDecide (UniversalCommitterBuilder.build {}) (leaderSlot dag.committee k) = .ok decided) :
    ∃ verdicts : List (Option VerifiedBlock),
      decided.map DecidedLeader.status = label dag.committee (k + 1) (verdicts.map some) ∧
      ∀ i b, verdicts[i]? = some (some b) → dag.Elected (k + 1 + i) b := by
  have hbound : ∀ x m : Nat, 0 < x → x ≤ (m - 2) / 3 → m < 2 ^ 32 → 3 * x + 2 + 1 < 2 ^ 32 := by omega
  have hopen : ∀ x : Nat, k < x → x ≤ dag.lastWave → 3 * x + 2 + 1 < u32Size :=
    fun x hx hle => hbound x dag.highestAcceptedRound (Nat.zero_lt_of_lt hx) hle hhighest
  obtain ⟨leaders, hrounds, hdecided⟩ := except_bind_ok_iff.mp hrun
  obtain rfl : decidedPrefix leaders = decided := Except.ok.inj hdecided
  obtain ⟨statuses, hstatus, helected⟩ : ∃ statuses,
      leaders.map Prod.fst = label dag.committee (k + 1) statuses ∧ dag.AllElected (k + 1) statuses := by
    rcases dag.openRounds_cases k with ⟨hnone, -⟩ | ⟨n, hn, hopenRounds⟩
    · rw [hnone] at hrounds
      obtain rfl : [] = leaders := Except.ok.inj hrounds
      exact ⟨[], rfl, fun i b hb => by cases hb⟩
    · have hlast : (3 * k + n) / 3 ≤ dag.lastWave := by rw [lastWave, hn]
      rw [hopenRounds] at hrounds
      exact @decideRounds_ok dag k _ n hopen hlast [] leaders [] rfl (fun i b hb => by cases hb) hrounds
  have hslots : InSlots dag.committee (k + 1) statuses := fun i b hb => (helected i b hb).1.2.1
  obtain ⟨verdicts, hverdicts⟩ := exists_map_some statuses
  refine ⟨verdicts, ?_, fun i b hb => helected i b ((getElem?_of_takeWhile hverdicts).1 i _ hb)⟩
  rw [hverdicts]
  exact decidedPrefix_status (Nat.succ_pos k) hslots hstatus

end DagState

end DualOptimistic.Consensus
