import DualOptimistic.Consensus.CommitterSpec
import DualOptimistic.Consensus.UniversalCommitter
import DualOptimistic.Data.WaveRule

/-! The pass over the open waves, without its panics.

With the default committer wave `w` has its leader at round `3 * w`. On a sound store in
which no two leaders of a wave are certified, `try_decide` never panics; it computes the
statuses of the open waves from the last one down and returns their decided prefix
(`tryDecide_eq`). -/
namespace DualOptimistic.Consensus
open Data

/-- The leader slot of a wave under the default committer. -/
def leaderSlot (c : Committee) (w : WaveNumber) : Slot := ⟨3 * w, electLeaderIndex c (3 * w) 0⟩

theorem electLeader_eq_some (c : Committee) (w : WaveNumber) :
    electLeader c {} (3 * w) = some (leaderSlot c w) := by
  have harith : ∀ n : Nat, (3 * n - 0) / 3 * 3 + 0 = 3 * n := by omega
  have hwave : BaseCommitterOptions.leaderRound {} (BaseCommitterOptions.waveNumber {} (3 * w)) = 3 * w :=
    harith w
  rw [electLeader, if_neg (not_not.mpr hwave)]
  rfl

theorem electLeader_eq_none (c : Committee) {round : Round} (h : round % 3 ≠ 0) :
    electLeader c {} round = none := by
  have harith : ∀ n : Nat, n % 3 ≠ 0 → (n - 0) / 3 * 3 + 0 ≠ n := by omega
  have hwave : BaseCommitterOptions.leaderRound {} (BaseCommitterOptions.waveNumber {} round) ≠ round :=
    harith round h
  rw [electLeader, if_pos hwave]

theorem decisionRound_eq (c : Committee) (w : WaveNumber) :
    BaseCommitterOptions.decisionRound {} (BaseCommitterOptions.waveNumber {} (leaderSlot c w).round) =
      3 * w + 2 := by
  have harith : ∀ n : Nat, (3 * n - 0) / 3 * 3 + 3 - 1 + 0 = 3 * n + 2 := by omega
  exact harith w

/-! ### Statuses -/

/-- What is decided of a slot, if anything: a block, or none. -/
def LeaderStatus.ofStatus (slot : Slot) : Option (Option VerifiedBlock) → LeaderStatus
  | none => .undecided slot
  | some none => .skip slot
  | some (some b) => .commit b

/-- The decision as a status, without the flag. -/
def DecidedLeader.status : DecidedLeader → LeaderStatus
  | .commit block _ => .commit block
  | .skip slot => .skip slot

/-- The statuses of the waves from `w` on, with their slots. -/
def label (c : Committee) : WaveNumber → List (Option (Option VerifiedBlock)) → List LeaderStatus
  | _, [] => []
  | w, s :: rest => .ofStatus (leaderSlot c w) s :: label c (w + 1) rest

theorem label_append (c : Committee) (w : WaveNumber) (l m : List (Option (Option VerifiedBlock))) :
    label c w (l ++ m) = label c w l ++ label c (w + l.length) m := by
  induction l generalizing w with
  | nil => rfl
  | cons s rest ih =>
    rw [List.cons_append, label, ih, List.length_cons, Nat.add_assoc w 1, Nat.add_comm 1]
    rfl

/-- Leaders in the slots of their waves, but the first. -/
theorem leaders_tail {c : Committee} {w : Nat} {P : VerifiedBlock → Prop} {v : Option VerifiedBlock}
    {rest : List (Option VerifiedBlock)}
    (h : ∀ i b, (v :: rest)[i]? = some (some b) → P b ∧ b.slot = leaderSlot c (w + i)) :
    ∀ i b, rest[i]? = some (some b) → P b ∧ b.slot = leaderSlot c (w + 1 + i) := by
  intro i b hb
  obtain ⟨hP, hslot⟩ := h (i + 1) b hb
  refine ⟨hP, ?_⟩
  rwa [Nat.add_assoc w, Nat.add_comm 1 i]

/-- The first of a labelled list of decisions. -/
theorem decided_cons {c : Committee} {w : WaveNumber} {decided : List DecidedLeader} {v : Option VerifiedBlock}
    {rest : List (Option VerifiedBlock)}
    (h : decided.map DecidedLeader.status = label c w ((v :: rest).map some)) :
    ∃ d ds, decided = d :: ds ∧ ds.map DecidedLeader.status = label c (w + 1) (rest.map some) ∧
      match v with
      | none => d = .skip (leaderSlot c w)
      | some b => ∃ direct, d = .commit b direct := by
  cases decided with
  | nil => cases h
  | cons d ds =>
    rw [List.map_cons, List.map_cons, label, List.cons.injEq] at h
    obtain ⟨hhead, htail⟩ := h
    refine ⟨d, ds, rfl, htail, ?_⟩
    cases v with
    | none =>
      cases d with
      | commit b direct => cases hhead
      | skip slot => exact congrArg DecidedLeader.skip (LeaderStatus.skip.inj hhead)
    | some b =>
      cases d with
      | commit b' direct => exact ⟨direct, by rw [LeaderStatus.commit.inj hhead]⟩
      | skip slot => cases hhead

theorem mem_label {c : Committee} {w : WaveNumber} {statuses : List (Option (Option VerifiedBlock))}
    {status : LeaderStatus} :
    status ∈ label c w statuses ↔
      ∃ i s, statuses[i]? = some s ∧ status = .ofStatus (leaderSlot c (w + i)) s := by
  induction statuses generalizing w with
  | nil => exact iff_of_false List.not_mem_nil fun h => (by obtain ⟨i, s, hs, -⟩ := h; cases hs)
  | cons s rest ih =>
    rw [label, List.mem_cons, ih]
    constructor
    · intro h
      rcases h with hhead | ⟨i, s', hs', hstatus⟩
      · exact ⟨0, s, rfl, hhead⟩
      · rw [Nat.add_assoc, Nat.add_comm 1 i] at hstatus
        exact ⟨i + 1, s', hs', hstatus⟩
    · intro h
      obtain ⟨i, s', hs', hstatus⟩ := h
      cases i with
      | zero =>
        obtain rfl := Option.some.inj hs'
        exact .inl hstatus
      | succ i =>
        refine .inr ⟨i, s', hs', ?_⟩
        rwa [Nat.add_assoc, Nat.add_comm 1 i]

/-- The slots skipped among labelled decisions. -/
theorem skip_mem_iff {c : Committee} {w : WaveNumber} {decided : List DecidedLeader}
    {verdicts : List (Option VerifiedBlock)}
    (h : decided.map DecidedLeader.status = label c w (verdicts.map some)) {slot : Slot} :
    .skip slot ∈ decided ↔ ∃ i : Nat, verdicts[i]? = some none ∧ slot = leaderSlot c (w + i) := by
  have hstatus : .skip slot ∈ decided ↔ LeaderStatus.skip slot ∈ label c w (verdicts.map some) := by
    rw [← h, List.mem_map]
    constructor
    · exact fun hmem => ⟨_, hmem, rfl⟩
    · intro hmem
      obtain ⟨d, hd, hskip⟩ := hmem
      cases d with
      | commit b direct => cases hskip
      | skip other => rwa [← LeaderStatus.skip.inj hskip]
  rw [hstatus, mem_label]
  constructor
  · intro hmem
    obtain ⟨i, s, hs, hskip⟩ := hmem
    rw [List.getElem?_map, Option.map_eq_some_iff] at hs
    obtain ⟨v, hv, rfl⟩ := hs
    cases v with
    | none => exact ⟨i, hv, LeaderStatus.skip.inj hskip⟩
    | some x => cases hskip
  · intro hmem
    obtain ⟨i, hi, rfl⟩ := hmem
    exact ⟨i, some none, by rw [List.getElem?_map, hi]; rfl, rfl⟩

/-- Committed blocks sit in the leader slots of their waves. -/
def InSlots (c : Committee) (w : WaveNumber) (statuses : List (Option (Option VerifiedBlock))) : Prop :=
  ∀ i b, statuses[i]? = some (some (some b)) → b.slot = leaderSlot c (w + i)

theorem InSlots.tail {c : Committee} {w : WaveNumber} {s : Option (Option VerifiedBlock)}
    {statuses : List (Option (Option VerifiedBlock))} (h : InSlots c w (s :: statuses)) :
    InSlots c (w + 1) statuses := by
  intro i b hb
  have := h (i + 1) b (by rwa [List.getElem?_cons_succ])
  rwa [Nat.add_assoc, Nat.add_comm 1 i]

theorem InSlots.head {c : Committee} {w : WaveNumber} {s : Option (Option VerifiedBlock)}
    {statuses : List (Option (Option VerifiedBlock))} (h : InSlots c w (s :: statuses)) :
    (LeaderStatus.ofStatus (leaderSlot c w) s).round = 3 * w := by
  match s with
  | none => rfl
  | some none => rfl
  | some (some b) => exact congrArg Slot.round (h 0 b rfl)

theorem exists_map_some {α : Type} (l : List (Option α)) :
    ∃ vs : List α, vs.map some = l.takeWhile Option.isSome := by
  induction l with
  | nil => exact ⟨[], rfl⟩
  | cons x rest ih =>
    cases x with
    | none => exact ⟨[], rfl⟩
    | some v =>
      obtain ⟨vs, hvs⟩ := ih
      exact ⟨v :: vs, congrArg (some v :: ·) hvs⟩

/-- The prefix that was taken, and the element it stopped at. -/
theorem getElem?_of_takeWhile {α : Type} {l : List (Option α)} {vs : List α}
    (h : vs.map some = l.takeWhile Option.isSome) :
    (∀ (i : Nat) v, vs[i]? = some v → l[i]? = some (some v)) ∧ ∀ v, l[vs.length]? ≠ some (some v) := by
  induction l generalizing vs with
  | nil =>
    obtain rfl : vs = [] := List.map_eq_nil_iff.mp h
    exact ⟨fun i v hv => (by cases hv), fun v hv => (by cases hv)⟩
  | cons x rest ih =>
    cases x with
    | none =>
      obtain rfl : vs = [] := List.map_eq_nil_iff.mp h
      exact ⟨fun i v hv => (by cases hv), fun v hv => (by cases hv)⟩
    | some y =>
      cases vs with
      | nil => cases h
      | cons z zs =>
        obtain ⟨hz, hzs⟩ := List.cons.inj h
        obtain ⟨hpre, hstop⟩ := ih hzs
        refine ⟨fun i v hv => ?_, hstop⟩
        cases i with
        | zero =>
          rw [← hz]
          exact congrArg some hv
        | succ i => exact hpre i v hv

/-- The decided prefix is read off the statuses. -/
theorem decidedPrefix_status {c : Committee} {w : WaveNumber} (hw : 0 < w)
    {statuses : List (Option (Option VerifiedBlock))} (hslots : InSlots c w statuses)
    {leaders : List (LeaderStatus × Decision)} (h : leaders.map Prod.fst = label c w statuses) :
    (DagState.decidedPrefix leaders).map DecidedLeader.status =
      label c w (statuses.takeWhile Option.isSome) := by
  induction statuses generalizing w leaders with
  | nil =>
    rw [label, List.map_eq_nil_iff] at h
    rw [h]
    rfl
  | cons s rest ih =>
    obtain ⟨⟨status, decision⟩, leaders, rfl⟩ : ∃ l ls, leaders = l :: ls := by
      cases leaders with
      | nil => cases h
      | cons l ls => exact ⟨l, ls, rfl⟩
    rw [List.map_cons, label, List.cons.injEq] at h
    obtain ⟨hstatus, hrest⟩ := h
    have hround : status.round ≠ genesisRound := by
      have hstatus' : status = .ofStatus (leaderSlot c w) s := hstatus
      rw [hstatus', hslots.head]
      exact Nat.ne_of_gt (Nat.mul_pos (by decide) hw)
    rw [DagState.decidedPrefix, if_neg hround]
    have hih := ih (Nat.succ_pos w) hslots.tail hrest
    obtain rfl : status = .ofStatus (leaderSlot c w) s := hstatus
    match s with
    | none => rfl
    | some none => exact congrArg (LeaderStatus.skip _ :: ·) hih
    | some (some b) => exact congrArg (LeaderStatus.commit b :: ·) hih

namespace DagState

/-! ### One wave -/

section Status
variable (dag : DagState)

/-- The leaders of the wave that a quorum of decision blocks certifies. -/
def supportedLeaders (w : WaveNumber) : List VerifiedBlock :=
  (dag.getUncommittedBlocksAtSlot (leaderSlot dag.committee w)).filter fun b =>
    decide (dag.committee.Quorum (dag.certifiers b.reference (3 * w + 2)))

/-- What the direct rule says of a wave. -/
def directStatus (w : WaveNumber) : Option (Option VerifiedBlock) :=
  if dag.enoughLeaderBlame (3 * w + 1) (leaderSlot dag.committee w).authority then some none
  else (dag.supportedLeaders w).head?.map some

/-- The leaders of the wave that some of the blocks certify. -/
def certifiedLeaders (w : WaveNumber) (potentialCertificates : List VerifiedBlock) : List VerifiedBlock :=
  (dag.getUncommittedBlocksAtSlot (leaderSlot dag.committee w)).filter fun b =>
    potentialCertificates.any fun d => decide (Certifies dag.committee dag.getBlock b.reference d)

/-- The leader of the wave that `anchor` has seen certified. -/
def seenLeader (anchor : VerifiedBlock) (w : WaveNumber) : Option VerifiedBlock :=
  match dag.ancestorsAtRound anchor (3 * w + 2) with
  | .ok potentialCertificates => (dag.certifiedLeaders w potentialCertificates).head?
  | .error _ => none

/-- The status of a wave, given those of the later ones. -/
def waveStatus (w : WaveNumber) (later : List (Option (Option VerifiedBlock))) :
    Option (Option VerifiedBlock) :=
  (dag.directStatus w).or ((WaveRule.anchor later).map fun anchor => dag.seenLeader anchor w)

/-- The statuses of `n` waves from `w` on, from the last one down. -/
def statuses : WaveNumber → Nat → List (Option (Option VerifiedBlock))
  | _, 0 => []
  | w, n + 1 => dag.waveStatus w (statuses (w + 1) n) :: statuses (w + 1) n

/-- No two leaders of a slot are certified. -/
def Unequivocal : Prop :=
  ∀ {b b' d d' : VerifiedBlock}, dag.getBlock b.reference = some b → dag.getBlock b'.reference = some b' →
    dag.getBlock d.reference = some d → dag.getBlock d'.reference = some d' → b.slot = b'.slot →
    d.round = b.round + 2 → d'.round = b.round + 2 →
    Certifies dag.committee dag.getBlock b.reference d →
    Certifies dag.committee dag.getBlock b'.reference d' → b = b'

end Status

variable {dag : DagState}

theorem getBlock_of_blocks {r : BlockRef} {b : VerifiedBlock} (h : dag.blocks.map.get? r = some b) :
    dag.getBlock r = some b := by
  rw [getBlock, h]
  rfl

theorem mem_certifiers {leader : BlockRef} {decision : Round} (hdecision : decision + 1 < u32Size)
    {i : AuthorityIndex} : i ∈ dag.certifiers leader decision ↔
      ∃ d, dag.blocks.map.get? d.reference = some d ∧ d.author = i ∧ d.round = decision ∧
        d.reference ∉ dag.committed ∧ Certifies dag.committee dag.getBlock leader d := by
  rw [certifiers, List.mem_toFinset, List.mem_map]
  refine exists_congr fun d => ?_
  rw [List.mem_filter, mem_getUncommittedBlocksAtRound hdecision, decide_eq_true_iff]
  tauto

/-- Equal elements without repetition: at most one. -/
theorem eq_nil_or_singleton {l : List VerifiedBlock} (hnodup : l.Nodup)
    (h : ∀ x ∈ l, ∀ y ∈ l, x = y) : l = [] ∨ ∃ x, l = [x] := by
  match l with
  | [] => exact .inl rfl
  | [x] => exact .inr ⟨x, rfl⟩
  | x :: y :: rest =>
    have hxy := h x (List.mem_cons_self ..) y (List.mem_cons_of_mem _ (List.mem_cons_self ..))
    exact absurd (hxy ▸ List.mem_cons_self ..) (List.nodup_cons.mp hnodup).1

section Wave
variable {w : WaveNumber} (h : dag.Sound) (hu : dag.Unequivocal) (hw : 3 * w + 2 < u32Size)

include hw in
/-- The rounds of a wave are below the last one, which is a leader round. -/
theorem decision_lt : 3 * w + 2 + 1 < u32Size := by
  have harith : ∀ n : Nat, 3 * n + 2 < 2 ^ 32 → 3 * n + 2 + 1 < 2 ^ 32 := by omega
  exact harith w hw

include hw in
theorem mem_leaderBlocks {b : VerifiedBlock} :
    b ∈ dag.getUncommittedBlocksAtSlot (leaderSlot dag.committee w) ↔
      dag.blocks.map.get? b.reference = some b ∧ b.slot = leaderSlot dag.committee w ∧
        b.reference ∉ dag.committed := by
  have hle : 3 * w ≤ 3 * w + 2 + 1 := Nat.le_add_right (3 * w) 3
  exact mem_getUncommittedBlocksAtSlot (hle.trans_lt (decision_lt hw))

include hu hw in
/-- Only one leader of a wave can have a certificate among stored blocks. -/
theorem certified_unique {l : List VerifiedBlock}
    (hl : ∀ b ∈ l, b ∈ dag.getUncommittedBlocksAtSlot (leaderSlot dag.committee w) ∧
      ∃ d, dag.getBlock d.reference = some d ∧ d.round = 3 * w + 2 ∧
        Certifies dag.committee dag.getBlock b.reference d)
    (hnodup : l.Nodup) : l = [] ∨ ∃ b, l = [b] := by
  refine eq_nil_or_singleton hnodup fun x hx y hy => ?_
  obtain ⟨hxmem, d, hd, hdr, hcert⟩ := hl x hx
  obtain ⟨hymem, d', hd', hdr', hcert'⟩ := hl y hy
  obtain ⟨hxget, hxslot, -⟩ := (mem_leaderBlocks hw).mp hxmem
  obtain ⟨hyget, hyslot, -⟩ := (mem_leaderBlocks hw).mp hymem
  have hround : x.round = 3 * w := congrArg Slot.round hxslot
  exact hu (getBlock_of_blocks hxget) (getBlock_of_blocks hyget) hd hd' (hxslot.trans hyslot.symm)
    (hround ▸ hdr) (hround ▸ hdr') hcert hcert'

include h hu hw in
/-- **The direct rule.** -/
theorem tryDirectDecide_eq :
    dag.tryDirectDecide {} (leaderSlot dag.committee w) =
      .ok (.ofStatus (leaderSlot dag.committee w) (dag.directStatus w)) := by
  have hsupport : ∀ b ∈ dag.getUncommittedBlocksAtSlot (leaderSlot dag.committee w),
      dag.enoughLeaderSupport (3 * w + 2) b =
        .ok (decide (dag.committee.Quorum (dag.certifiers b.reference (3 * w + 2)))) := by
    intro b hb
    obtain ⟨-, hslot, -⟩ := (mem_leaderBlocks hw).mp hb
    have hround : b.round = 3 * w := congrArg Slot.round hslot
    exact enoughLeaderSupport_eq h (decision_lt hw) (hround ▸ le_rfl)
  have hone : dag.supportedLeaders w = [] ∨ ∃ b, dag.supportedLeaders w = [b] := by
    refine certified_unique hu hw (fun b hb => ?_) ((getUncommittedBlocksAtSlot_nodup _).filter _)
    obtain ⟨hmem, hquorum⟩ := List.mem_filter.mp hb
    obtain ⟨i, hi⟩ := (of_decide_eq_true hquorum).nonempty
    obtain ⟨d, hd, -, hdr, -, hcert⟩ := (mem_certifiers (decision_lt hw)).mp hi
    exact ⟨hmem, d, getBlock_of_blocks hd, hdr, hcert⟩
  unfold tryDirectDecide directStatus
  show (if dag.enoughLeaderBlame (3 * w + 1) (leaderSlot dag.committee w).authority = true then _ else _) = _
  split_ifs with hblame
  · rfl
  · rw [decisionRound_eq, filterOk_eq hsupport, except_ok_bind, ← supportedLeaders]
    rcases hone with hnil | ⟨b, hsingle⟩
    · rw [hnil]
      rfl
    · rw [hsingle]
      rfl

include h hu hw in
/-- The blocks an anchor is asked for are the decision blocks in its history. -/
theorem seenLeader_spec (anchor : VerifiedBlock) :
    dag.decideLeaderFromAnchor {} anchor (leaderSlot dag.committee w) =
        .ok (.ofStatus (leaderSlot dag.committee w) (some (dag.seenLeader anchor w))) ∧
      ∀ b, dag.seenLeader anchor w = some b ↔
        b ∈ dag.getUncommittedBlocksAtSlot (leaderSlot dag.committee w) ∧
        ∃ d, dag.getBlock d.reference = some d ∧ d.round = 3 * w + 2 ∧
          Reaches dag.getBlock anchor d ∧ Certifies dag.committee dag.getBlock b.reference d := by
  obtain ⟨certs, hcerts, -, hmem⟩ :=
    h.descending.ancestorsAtRound_spec anchor (Nat.lt_of_succ_lt (decision_lt hw))
  have hseen : dag.seenLeader anchor w = (dag.certifiedLeaders w certs).head? := by
    rw [seenLeader, hcerts]
  have hcertified : ∀ b, b ∈ dag.certifiedLeaders w certs ↔
      b ∈ dag.getUncommittedBlocksAtSlot (leaderSlot dag.committee w) ∧
      ∃ d, dag.getBlock d.reference = some d ∧ d.round = 3 * w + 2 ∧
        Reaches dag.getBlock anchor d ∧ Certifies dag.committee dag.getBlock b.reference d := by
    intro b
    rw [certifiedLeaders, List.mem_filter, List.any_eq_true]
    refine and_congr_right fun _ => exists_congr fun d => ?_
    rw [hmem, decide_eq_true_iff, and_assoc, and_assoc]
  have hone : dag.certifiedLeaders w certs = [] ∨ ∃ b, dag.certifiedLeaders w certs = [b] := by
    refine certified_unique hu hw (fun b hb => ?_) ((getUncommittedBlocksAtSlot_nodup _).filter _)
    obtain ⟨hslot, d, hd, hdr, -, hcert⟩ := (hcertified b).mp hb
    exact ⟨hslot, d, hd, hdr, hcert⟩
  have hany : ∀ b ∈ dag.getUncommittedBlocksAtSlot (leaderSlot dag.committee w),
      dag.anyCertificate b certs ∅ =
        .ok (certs.any fun d => decide (Certifies dag.committee dag.getBlock b.reference d)) := by
    intro b hb
    obtain ⟨-, hslot, -⟩ := (mem_leaderBlocks hw).mp hb
    have hround : b.round = 3 * w := congrArg Slot.round hslot
    refine anyCertificate_eq h (fun d hd => ?_) (votesCached_empty b)
    obtain ⟨hget, hdr, -⟩ := (hmem d).mp hd
    exact ⟨hget, by rw [hdr, hround]⟩
  constructor
  · unfold decideLeaderFromAnchor
    rw [decisionRound_eq, hcerts, hseen, except_ok_bind, filterOk_eq hany, except_ok_bind, ← certifiedLeaders]
    rcases hone with hnil | ⟨b, hsingle⟩
    · rw [hnil]
      rfl
    · rw [hsingle]
      rfl
  · intro b
    rw [hseen, ← hcertified]
    rcases hone with hnil | ⟨x, hsingle⟩
    · simp [hnil]
    · rw [hsingle, List.head?_cons, Option.some.injEq, List.mem_singleton, eq_comm]

include h hu hw in
/-- **The indirect rule** asks the anchor. -/
theorem tryIndirectDecide_eq {w' : WaveNumber} (hlt : w < w')
    {later : List (Option (Option VerifiedBlock))} (hslots : InSlots dag.committee w' later) :
    dag.tryIndirectDecide {} (leaderSlot dag.committee w) (label dag.committee w' later) =
      .ok (.ofStatus (leaderSlot dag.committee w)
        ((WaveRule.anchor later).map fun anchor => dag.seenLeader anchor w)) := by
  induction later generalizing w' with
  | nil => rfl
  | cons s rest ih =>
    have hround : (leaderSlot dag.committee w).round + BaseCommitterOptions.waveLength {} ≤
        (LeaderStatus.ofStatus (leaderSlot dag.committee w') s).round := by
      have harith : ∀ n m : Nat, n < m → 3 * n + 3 ≤ 3 * m := by omega
      rw [hslots.head]
      exact harith w w' hlt
    rw [label, tryIndirectDecide.eq_def]
    show (if _ then _ else _) = _
    rw [if_pos hround]
    match s with
    | none => rfl
    | some none => exact ih (Nat.lt_succ_of_lt hlt) hslots.tail
    | some (some anchor) => exact (seenLeader_spec h hu hw anchor).1

include h hu hw in
/-- **One slot of the pass.** -/
theorem decideSlot_eq {later : List (Option (Option VerifiedBlock))}
    (hslots : InSlots dag.committee (w + 1) later) {leaders : List (LeaderStatus × Decision)}
    (hleaders : leaders.map Prod.fst = label dag.committee (w + 1) later) :
    ∃ decision, dag.decideSlot {} (leaderSlot dag.committee w) leaders =
      .ok (.ofStatus (leaderSlot dag.committee w) (dag.waveStatus w later), decision) := by
  unfold decideSlot waveStatus
  rw [tryDirectDecide_eq h hu hw]
  match hdirect : dag.directStatus w with
  | some none => exact ⟨.direct, rfl⟩
  | some (some b) => exact ⟨.direct, rfl⟩
  | none =>
    refine ⟨.indirect, ?_⟩
    rw [hleaders]
    show (do
      let status ← dag.tryIndirectDecide {} (leaderSlot dag.committee w) (label dag.committee (w + 1) later)
      pure (status, Decision.indirect)) = _
    rw [tryIndirectDecide_eq h hu hw (Nat.lt_succ_self w) hslots]
    rfl

include h hu hw in
/-- A committed leader is an uncommitted block of its slot. -/
theorem waveStatus_mem {later : List (Option (Option VerifiedBlock))} {b : VerifiedBlock}
    (hb : dag.waveStatus w later = some (some b)) :
    b ∈ dag.getUncommittedBlocksAtSlot (leaderSlot dag.committee w) := by
  rcases Option.or_eq_some_iff.mp hb with hdirect | ⟨-, hindirect⟩
  · unfold directStatus at hdirect
    split_ifs at hdirect
    · cases hdirect
    · obtain ⟨x, hx, hxb⟩ := Option.map_eq_some_iff.mp hdirect
      rw [← Option.some.inj hxb]
      exact (List.mem_filter.mp (List.mem_of_head? hx)).1
  · obtain ⟨anchor, -, hseen⟩ := Option.map_eq_some_iff.mp hindirect
    exact (((seenLeader_spec h hu hw anchor).2 b).mp hseen).1

end Wave

/-! ### All open waves -/

section Pass
variable (h : dag.Sound) (hu : dag.Unequivocal)

include h hu in
theorem mem_of_statuses {w n : Nat}
    (hopen : ∀ x : Nat, w ≤ x → x < w + n → 3 * x + 2 ≤ dag.highestAcceptedRound) {i : Nat} {b : VerifiedBlock}
    (hb : (dag.statuses w n)[i]? = some (some (some b))) :
    b ∈ dag.getUncommittedBlocksAtSlot (leaderSlot dag.committee (w + i)) ∧
      3 * (w + i) + 2 ≤ dag.highestAcceptedRound := by
  induction n generalizing w i with
  | zero => cases hb
  | succ n ih =>
    cases i with
    | zero =>
      have hw := hopen w le_rfl (Nat.lt_add_of_pos_right (Nat.succ_pos n))
      exact ⟨waveStatus_mem h hu (hw.trans_lt h.highest_lt) (Option.some.inj hb), hw⟩
    | succ i =>
      have hopen' : ∀ x : Nat, w + 1 ≤ x → x < w + 1 + n → 3 * x + 2 ≤ dag.highestAcceptedRound :=
        fun x hx hlt => hopen x (by omega) (by omega)
      have hrest := ih hopen' hb
      rwa [Nat.add_assoc, Nat.add_comm 1 i] at hrest

include h hu in
theorem statuses_inSlots {w n : Nat}
    (hopen : ∀ x : Nat, w ≤ x → x < w + n → 3 * x + 2 ≤ dag.highestAcceptedRound) :
    InSlots dag.committee w (dag.statuses w n) := by
  intro i b hb
  obtain ⟨hmem, hw⟩ := mem_of_statuses h hu hopen hb
  exact ((mem_leaderBlocks (hw.trans_lt h.highest_lt)).mp hmem).2.1

theorem decideRound_last (k : Nat) (leaders : List (LeaderStatus × Decision)) :
    dag.decideRound (leaderSlot dag.committee k) (3 * k) [{}] leaders = .ok (true, leaders) := by
  rw [decideRound, electLeader_eq_some]
  exact if_pos rfl

theorem decideRound_between {last : Slot} {round : Round} (h : round % 3 ≠ 0)
    (leaders : List (LeaderStatus × Decision)) :
    dag.decideRound last round [{}] leaders = .ok (false, leaders) := by
  rw [decideRound, electLeader_eq_none dag.committee h]
  rfl

theorem decideRound_leader {last : Slot} {w : Nat} (hne : leaderSlot dag.committee w ≠ last)
    (leaders : List (LeaderStatus × Decision)) :
    dag.decideRound last (3 * w) [{}] leaders =
      dag.decideSlot {} (leaderSlot dag.committee w) leaders >>= fun decided => .ok (false, decided :: leaders) := by
  rw [decideRound, electLeader_eq_some]
  dsimp only
  rw [if_neg hne]
  rfl

/-- The rounds of the loop, the last first. -/
theorem rounds_down (k n : Nat) : (List.range' (3 * k) (n + 1 + 1)).reverse =
    (3 * k + (n + 1)) :: (List.range' (3 * k) (n + 1)).reverse := by
  rw [List.range'_concat, List.reverse_append, Nat.one_mul]
  rfl

/-- A round after that of wave `k` starts a later wave, or is of the wave of the round before. -/
theorem wave_of_round (k n : Nat) :
    (∃ w, k < w ∧ 3 * k + (n + 1) = 3 * w ∧ (3 * k + (n + 1)) / 3 = w ∧ (3 * k + n) / 3 + 1 = w) ∨
      (3 * k + (n + 1)) % 3 ≠ 0 ∧ (3 * k + (n + 1)) / 3 = (3 * k + n) / 3 := by
  by_cases hmod : (3 * k + (n + 1)) % 3 = 0
  · exact .inl ⟨(3 * k + (n + 1)) / 3, by omega, by omega, rfl, by omega⟩
  · exact .inr ⟨hmod, by omega⟩

theorem leaderSlot_ne {c : Committee} {k w : Nat} (h : k < w) : leaderSlot c w ≠ leaderSlot c k := by
  intro heq
  have hrounds : (3 * w : Nat) = 3 * k := congrArg Slot.round heq
  omega

include h hu in
/-- **The round loop.** From round `3 * k + n` down, with the later waves already there, it
adds the waves above `k` and stops at `k`. -/
theorem decideRounds_eq {k M n : Nat} (hopen : ∀ x : Nat, k < x → x ≤ M → 3 * x + 2 ≤ dag.highestAcceptedRound)
    (hn : (3 * k + n) / 3 ≤ M) {leaders : List (LeaderStatus × Decision)}
    (hleaders : leaders.map Prod.fst = label dag.committee ((3 * k + n) / 3 + 1)
      (dag.statuses ((3 * k + n) / 3 + 1) (M - (3 * k + n) / 3))) :
    ∃ leaders', dag.decideRounds [{}] (leaderSlot dag.committee k)
        (List.range' (3 * k) (n + 1)).reverse leaders = .ok leaders' ∧
      leaders'.map Prod.fst = label dag.committee (k + 1) (dag.statuses (k + 1) (M - k)) := by
  induction n generalizing leaders with
  | zero =>
    have hk : (3 * k + 0) / 3 = k := by omega
    rw [hk] at hleaders
    refine ⟨leaders, ?_, hleaders⟩
    show dag.decideRounds [{}] _ [3 * k] leaders = _
    rw [decideRounds, List.reverse_singleton, decideRound_last]
    rfl
  | succ n ih =>
    rw [rounds_down, decideRounds, List.reverse_singleton]
    rcases wave_of_round k n with ⟨w, hkw, hw, hdiv, hdiv'⟩ | ⟨hmod, hdiv⟩
    · -- a leader round
      rw [hdiv] at hn hleaders
      have hwopen := (hopen w hkw hn).trans_lt h.highest_lt
      have hslots : InSlots dag.committee (w + 1) (dag.statuses (w + 1) (M - w)) :=
        statuses_inSlots h hu fun x hx hlt => hopen x (by omega) (by omega)
      obtain ⟨decision, hslot⟩ := decideSlot_eq h hu hwopen hslots hleaders
      rw [hw, decideRound_leader (leaderSlot_ne hkw), hslot]
      refine ih (by omega) ?_
      have hrest : M - (3 * k + n) / 3 = M - w + 1 := by omega
      rw [hdiv', hrest, List.map_cons, hleaders]
      rfl
    · rw [decideRound_between hmod]
      rw [hdiv] at hn hleaders
      exact ih hn hleaders

/-- The last wave with a decision round. -/
def lastWave (dag : DagState) : WaveNumber := (dag.highestAcceptedRound - 2) / 3

theorem open_of_le_lastWave {w : WaveNumber} (hpos : 0 < w) (hle : w ≤ dag.lastWave) :
    3 * w + 2 ≤ dag.highestAcceptedRound := by
  have harith : ∀ n m : Nat, 0 < n → n ≤ (m - 2) / 3 → 3 * n + 2 ≤ m := by omega
  exact harith w dag.highestAcceptedRound hpos hle

/-- Either no wave after `k` has a decision round, or the loop goes from the last round that
can have one down to the round of `k`. -/
theorem openRounds_cases (dag : DagState) (k : Nat) :
    (dag.openRounds (leaderSlot dag.committee k) = [] ∧ dag.lastWave - k = 0) ∨
      ∃ n, dag.highestAcceptedRound - 2 = 3 * k + n ∧
        dag.openRounds (leaderSlot dag.committee k) = (List.range' (3 * k) (n + 1)).reverse := by
  by_cases hlow : dag.highestAcceptedRound - 2 < 3 * k
  · have harith : ∀ n m : Nat, n - 2 < 3 * m → n - 2 + 1 - 3 * m = 0 ∧ (n - 2) / 3 - m = 0 := by omega
    obtain ⟨hlen, hnone⟩ := harith dag.highestAcceptedRound k hlow
    refine .inl ⟨?_, hnone⟩
    show (List.range' (3 * k) (dag.highestAcceptedRound - 2 + 1 - 3 * k)).reverse = _
    rw [hlen]
    rfl
  · obtain ⟨n, hn⟩ := Nat.exists_eq_add_of_le (Nat.le_of_not_lt hlow)
    refine .inr ⟨n, hn, ?_⟩
    show (List.range' (3 * k) (dag.highestAcceptedRound - 2 + 1 - 3 * k)).reverse = _
    have harith : ∀ m : Nat, 3 * m + n + 1 - 3 * m = n + 1 := by omega
    rw [hn]
    exact congrArg (fun m => (List.range' (3 * k) m).reverse) (harith k)

include h hu in
/-- **The pass.** `try_decide` does not panic, and returns the decided prefix of the
statuses of the open waves. -/
theorem tryDecide_eq (k : Nat) :
    ∃ decided, dag.tryDecide (UniversalCommitterBuilder.build {}) (leaderSlot dag.committee k) = .ok decided ∧
      decided.map DecidedLeader.status =
        label dag.committee (k + 1) ((dag.statuses (k + 1) (dag.lastWave - k)).takeWhile Option.isSome) := by
  have hopen : ∀ x : Nat, k < x → x ≤ dag.lastWave → 3 * x + 2 ≤ dag.highestAcceptedRound :=
    fun x hx => open_of_le_lastWave (Nat.zero_lt_of_lt hx)
  have hslots : InSlots dag.committee (k + 1) (dag.statuses (k + 1) (dag.lastWave - k)) := by
    have harith : ∀ x n : Nat, k + 1 ≤ x → x < k + 1 + (n - k) → x ≤ n := by omega
    exact statuses_inSlots h hu fun x hx hlt => hopen x hx (harith x dag.lastWave hx hlt)
  suffices hrounds : ∃ leaders, dag.decideRounds [{}] (leaderSlot dag.committee k)
      (dag.openRounds (leaderSlot dag.committee k)) [] = .ok leaders ∧
      leaders.map Prod.fst = label dag.committee (k + 1) (dag.statuses (k + 1) (dag.lastWave - k)) by
    obtain ⟨leaders, hrun, hstatus⟩ := hrounds
    refine ⟨decidedPrefix leaders, ?_, decidedPrefix_status (Nat.succ_pos k) hslots hstatus⟩
    unfold tryDecide
    rw [show UniversalCommitterBuilder.build {} = [{}] from rfl, hrun]
    rfl
  rcases dag.openRounds_cases k with ⟨hrounds, hnone⟩ | ⟨n, hn, hrounds⟩
  · rw [hrounds, hnone]
    exact ⟨[], rfl, rfl⟩
  · have hlast : (3 * k + n) / 3 = dag.lastWave := by rw [lastWave, hn]
    rw [hrounds]
    refine decideRounds_eq h hu hopen hlast.le ?_
    rw [hlast, Nat.sub_self]
    rfl

end Pass

end DagState

end DualOptimistic.Consensus
