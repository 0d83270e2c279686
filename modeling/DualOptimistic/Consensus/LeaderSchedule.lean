import DualOptimistic.Consensus.CommitterSpec
import DualOptimistic.Consensus.UniversalCommitter
import Mathlib.Data.List.DropRight
import Mathlib.Data.List.TakeWhile
import Mathlib.Data.Nat.ModEq

/-! The order in which a committer decides leader slots, whatever its configuration.

A committer may have several leaders a round, waves of any length, and with pipelining a leader
round in every round. Its leaders are elected round by round and committer by committer
(`schedule`). One call tries the slots from the last open round down to the last decided one, so
what it tries are the slots after that one in the schedule (`decideRounds_slots`), and what it
returns is a first part of them. Call after call, on whatever DAGs, the decided slots then run
through the schedule from its start, without a gap and without a repetition
(`decisions_follow_schedule`). -/
namespace DualOptimistic.Consensus
open Data

/-- The leader slots of a round, in the order of the committers. -/
def slotsAt (c : Committee) (committers : List BaseCommitterOptions) (round : Round) : List Slot :=
  committers.filterMap fun o => electLeader c o round

/-- The leader slots of `n` rounds from `round` on. -/
def schedule (c : Committee) (committers : List BaseCommitterOptions) (round n : Nat) : List Slot :=
  (List.range' round n).flatMap (slotsAt c committers)

/-- The slot a status is about. -/
def LeaderStatus.slot : LeaderStatus → Slot
  | commit block => block.slot
  | skip slot => slot
  | undecided slot => slot

theorem slotsAt_round {c : Committee} {committers : List BaseCommitterOptions} {round : Round} {slot : Slot}
    (h : slot ∈ slotsAt c committers round) : slot.round = round := by
  obtain ⟨o, -, ho⟩ := List.mem_filterMap.mp h
  unfold electLeader at ho
  split at ho
  · cases ho
  · rw [← Option.some.inj ho]

namespace DagState
variable {dag : DagState}

/-! ### One slot -/

theorem tryDirectDecide_slot {o : BaseCommitterOptions} {slot : Slot} (hround : slot.round < u32Size)
    {status : LeaderStatus} (h : dag.tryDirectDecide o slot = .ok status) : status.slot = slot := by
  unfold tryDirectDecide at h
  split at h
  · obtain rfl := Except.ok.inj h
    rfl
  · obtain ⟨supported, hsupported, h⟩ := except_bind_ok_iff.mp h
    split at h
    · obtain rfl := Except.ok.inj h
      rfl
    · obtain rfl := Except.ok.inj h
      have hmem := (filterOk_ok hsupported _ (List.mem_singleton_self _)).1
      exact ((mem_getUncommittedBlocksAtSlot hround).mp hmem).2.1
    · cases h

theorem decideLeaderFromAnchor_slot {o : BaseCommitterOptions} {anchor : VerifiedBlock} {slot : Slot}
    (hround : slot.round < u32Size) {status : LeaderStatus}
    (h : dag.decideLeaderFromAnchor o anchor slot = .ok status) : status.slot = slot := by
  unfold decideLeaderFromAnchor at h
  obtain ⟨potential, -, h⟩ := except_bind_ok_iff.mp h
  obtain ⟨certified, hcertified, h⟩ := except_bind_ok_iff.mp h
  split at h
  · obtain rfl := Except.ok.inj h
    rfl
  · obtain rfl := Except.ok.inj h
    have hmem := (filterOk_ok hcertified _ (List.mem_singleton_self _)).1
    exact ((mem_getUncommittedBlocksAtSlot hround).mp hmem).2.1
  · cases h

theorem tryIndirectDecide_slot {o : BaseCommitterOptions} {slot : Slot} (hround : slot.round < u32Size)
    {leaders : List LeaderStatus} {status : LeaderStatus} (h : dag.tryIndirectDecide o slot leaders = .ok status) :
    status.slot = slot := by
  induction leaders with
  | nil =>
    obtain rfl := Except.ok.inj h
    rfl
  | cons anchor rest ih =>
    unfold tryIndirectDecide at h
    split at h
    · cases anchor with
      | commit block => exact decideLeaderFromAnchor_slot hround h
      | skip _ => exact ih h
      | undecided _ =>
        obtain rfl := Except.ok.inj h
        rfl
    · exact ih h

/-- What is decided of a slot is about that slot. -/
theorem decideSlot_slot {o : BaseCommitterOptions} {slot : Slot} (hround : slot.round < u32Size)
    {leaders : List (LeaderStatus × Decision)} {decided : LeaderStatus × Decision}
    (h : dag.decideSlot o slot leaders = .ok decided) : decided.1.slot = slot := by
  unfold decideSlot at h
  obtain ⟨status, hstatus, h⟩ := except_bind_ok_iff.mp h
  split at h
  · obtain rfl := Except.ok.inj h
    exact tryDirectDecide_slot hround hstatus
  · obtain ⟨status', hstatus', h⟩ := except_bind_ok_iff.mp h
    obtain rfl := Except.ok.inj h
    exact tryIndirectDecide_slot hround hstatus'

/-! ### One call -/

/-- The slots of a list of statuses. -/
def slotsOf (leaders : List (LeaderStatus × Decision)) : List Slot := leaders.map fun l => l.1.slot

/-- A round tries its slots until it comes to the last decided one. -/
theorem decideRound_slots {lastDecided : Slot} {round : Round} (hround : round < u32Size)
    {committers : List BaseCommitterOptions} {leaders leaders' : List (LeaderStatus × Decision)} {reached : Bool}
    (h : dag.decideRound lastDecided round committers leaders = .ok (reached, leaders')) :
    (reached = true ↔ lastDecided ∈ slotsAt dag.committee committers round) ∧
      slotsOf leaders' = ((slotsAt dag.committee committers round).takeWhile (· ≠ lastDecided)).reverse ++
        slotsOf leaders := by
  induction committers generalizing leaders with
  | nil =>
    obtain ⟨rfl, rfl⟩ := Prod.mk.inj (Except.ok.inj h)
    exact ⟨by simp [slotsAt], rfl⟩
  | cons o rest ih =>
    rw [decideRound] at h
    cases helect : electLeader dag.committee o round with
    | none =>
      have hslots : slotsAt dag.committee (o :: rest) round = slotsAt dag.committee rest round :=
        List.filterMap_cons_none helect
      rw [helect] at h
      rw [hslots]
      exact ih h
    | some slot =>
      have hslots : slotsAt dag.committee (o :: rest) round = slot :: slotsAt dag.committee rest round :=
        List.filterMap_cons_some helect
      have hslot : slot.round = round := slotsAt_round (hslots ▸ List.mem_cons_self ..)
      rw [helect] at h
      dsimp only at h
      rw [hslots]
      split at h
      · rename_i heq
        obtain ⟨rfl, rfl⟩ := Prod.mk.inj (Except.ok.inj h)
        simp [heq]
      · rename_i hne
        obtain ⟨decided, hdecided, h⟩ := except_bind_ok_iff.mp h
        obtain ⟨hreached, hleaders⟩ := ih h
        have hdecidedslot := decideSlot_slot (hslot.symm ▸ hround) hdecided
        rw [hleaders, hreached]
        simp [slotsOf, hne, hdecidedslot, Ne.symm hne]

theorem decideRounds_slots {lastDecided : Slot} {rounds : List Round} (hrounds : ∀ r ∈ rounds, r < u32Size)
    {committers : List BaseCommitterOptions} {leaders leaders' : List (LeaderStatus × Decision)}
    (h : dag.decideRounds committers lastDecided rounds leaders = .ok leaders') :
    slotsOf leaders' = ((rounds.flatMap (slotsAt dag.committee committers.reverse)).takeWhile
      (· ≠ lastDecided)).reverse ++ slotsOf leaders := by
  induction rounds generalizing leaders with
  | nil =>
    obtain rfl := Except.ok.inj h
    rfl
  | cons round rest ih =>
    rw [decideRounds] at h
    obtain ⟨⟨reached, next⟩, hround, h⟩ := except_bind_ok_iff.mp h
    obtain ⟨hreached, hnext⟩ := decideRound_slots (hrounds round (List.mem_cons_self ..)) hround
    dsimp only at h
    rw [List.flatMap_cons, List.takeWhile_append]
    split at h
    · rename_i hdone
      obtain rfl := Except.ok.inj h
      have hshort : ¬ ((slotsAt dag.committee committers.reverse round).takeWhile (· ≠ lastDecided)).length =
          (slotsAt dag.committee committers.reverse round).length := by
        intro hlength
        have hall := List.takeWhile_eq_self_iff.mp ((List.takeWhile_prefix _).eq_of_length hlength)
        simpa using hall lastDecided (hreached.mp hdone)
      rw [if_neg hshort]
      exact hnext
    · rename_i hmore
      have hnone : lastDecided ∉ slotsAt dag.committee committers.reverse round :=
        fun hmem => hmore (hreached.mpr hmem)
      have hwhole : (slotsAt dag.committee committers.reverse round).takeWhile (· ≠ lastDecided) =
          slotsAt dag.committee committers.reverse round :=
        List.takeWhile_eq_self_iff.mpr fun slot hslot => by
          simpa using fun heq : slot = lastDecided => hnone (heq ▸ hslot)
      rw [if_pos (congrArg List.length hwhole), ih (fun r hr => hrounds r (List.mem_cons_of_mem _ hr)) h, hnext, hwhole,
        List.reverse_append, List.append_assoc]

theorem decidedPrefix_slots (leaders : List (LeaderStatus × Decision)) :
    (decidedPrefix leaders).map DecidedLeader.slot <+:
      (slotsOf leaders).filter fun slot => decide (slot.round ≠ genesisRound) := by
  induction leaders with
  | nil => exact List.prefix_refl _
  | cons l rest ih =>
    obtain ⟨status, decision⟩ := l
    have hround : status.round = status.slot.round := by cases status <;> rfl
    rw [decidedPrefix]
    show _ <+: (status.slot :: slotsOf rest).filter _
    split
    · rename_i hgenesis
      rw [List.filter_cons_of_neg (by simpa [hround] using hgenesis)]
      exact ih
    · rename_i hlater
      rw [List.filter_cons_of_pos (by simpa [hround] using hlater)]
      cases status with
      | undecided slot => exact List.nil_prefix
      | commit block => exact List.prefix_cons_inj _ |>.mpr ih
      | skip slot => exact List.prefix_cons_inj _ |>.mpr ih

/-- What a call returns is a first part of the slots after the last decided one. -/
theorem tryDecide_slots (hhighest : dag.highestAcceptedRound < u32Size) {committers : List BaseCommitterOptions}
    {lastDecided : Slot} {decided : List DecidedLeader} (h : dag.tryDecide committers lastDecided = .ok decided) :
    decided.map DecidedLeader.slot <+: ((schedule dag.committee committers lastDecided.round
      (dag.highestAcceptedRound - 2 + 1 - lastDecided.round)).rtakeWhile (· ≠ lastDecided)).filter
        fun slot => decide (slot.round ≠ genesisRound) := by
  rw [tryDecide] at h
  obtain ⟨leaders, hleaders, h⟩ := except_bind_ok_iff.mp h
  obtain rfl := Except.ok.inj h
  have hrounds : ∀ r ∈ dag.openRounds lastDecided, r < u32Size := by
    intro r hr
    obtain ⟨-, hlt⟩ := List.mem_range'_1.mp (List.mem_reverse.mp hr)
    have harith : ∀ h l r : Nat, h < u32Size → r < l + (h - 2 + 1 - l) → l ≤ r → r < u32Size := by
      intro h l r hh hr hl
      simp only [u32Size] at hh ⊢
      omega
    exact harith _ _ r hhighest hlt (List.mem_range'_1.mp (List.mem_reverse.mp hr)).1
  have hslots := decideRounds_slots hrounds hleaders
  have hreverse : (dag.openRounds lastDecided).flatMap (slotsAt dag.committee committers.reverse) =
      (schedule dag.committee committers lastDecided.round
        (dag.highestAcceptedRound - 2 + 1 - lastDecided.round)).reverse := by
    have hround : slotsAt dag.committee committers.reverse = List.reverse ∘ slotsAt dag.committee committers :=
      funext fun _ => List.filterMap_reverse
    rw [hround, openRounds, schedule, List.reverse_flatMap]
  rw [hreverse, show slotsOf [] = [] from rfl, List.append_nil] at hslots
  rw [List.rtakeWhile, ← hslots]
  exact decidedPrefix_slots leaders

end DagState

/-! ### Call after call -/

theorem schedule_append (c : Committee) (committers : List BaseCommitterOptions) (round n m : Nat) :
    schedule c committers round (n + m) = schedule c committers round n ++ schedule c committers (round + n) m := by
  rw [schedule, ← List.range'_append_1, List.flatMap_append]
  rfl

theorem rtakeWhile_ne_append {l m : List Slot} {slot : Slot} (h : slot ∉ m) :
    (l ++ slot :: m).rtakeWhile (· ≠ slot) = m := by
  have hne : ∀ x ∈ m.reverse, decide (x ≠ slot) = true := by
    intro x hx
    exact decide_eq_true fun heq => h (heq ▸ List.mem_reverse.mp hx)
  rw [List.rtakeWhile, List.reverse_append, List.reverse_cons, List.append_assoc, List.takeWhile_append_of_pos hne]
  simp

/-- One call goes on where the last one stopped. -/
theorem tryDecide_follows {dag : DagState} (hhighest : dag.highestAcceptedRound < u32Size)
    {committers : List BaseCommitterOptions} {n : Nat} (hnodup : (schedule dag.committee committers 0 n).Nodup)
    (hn : dag.highestAcceptedRound - 2 < n) {pre post : List Slot} {lastDecided : Slot}
    (hsplit : schedule dag.committee committers 0 n = pre ++ lastDecided :: post) {decided : List DecidedLeader}
    (h : dag.tryDecide committers lastDecided = .ok decided) :
    decided.map DecidedLeader.slot <+: post.filter fun slot => decide (slot.round ≠ genesisRound) := by
  have hslots := DagState.tryDecide_slots hhighest h
  rcases Nat.eq_zero_or_pos (dag.highestAcceptedRound - 2 + 1 - lastDecided.round) with hzero | hpos
  · rw [hzero] at hslots
    exact hslots.trans List.nil_prefix
  · -- the open rounds are a part of the schedule, with the last decided slot in the first of them
    obtain ⟨k, m, hk, hm⟩ : ∃ k m : Nat, dag.highestAcceptedRound - 2 + 1 - lastDecided.round = k ∧
        n = lastDecided.round + k + m := by
      have harith : ∀ h l : Nat, h - 2 < n → 0 < h - 2 + 1 - l → n = l + (h - 2 + 1 - l) + (n - (h - 2 + 1)) := by
        omega
      exact ⟨_, _, rfl, harith _ _ hn hpos⟩
    have hparts : schedule dag.committee committers 0 n = schedule dag.committee committers 0 lastDecided.round ++
        (schedule dag.committee committers lastDecided.round k ++
          schedule dag.committee committers (lastDecided.round + k) m) := by
      rw [hm, Nat.add_assoc, schedule_append, schedule_append, Nat.zero_add]
    have hopen : lastDecided ∈ schedule dag.committee committers lastDecided.round k := by
      have hmem : lastDecided ∈ schedule dag.committee committers 0 n := by
        rw [hsplit]
        exact List.mem_append_right _ (List.mem_cons_self ..)
      obtain ⟨r, -, hr⟩ := List.mem_flatMap.mp hmem
      refine List.mem_flatMap.mpr ⟨lastDecided.round, List.mem_range'_1.mpr ⟨le_rfl, ?_⟩, ?_⟩
      · exact Nat.lt_add_of_pos_right (hk ▸ hpos)
      · rwa [slotsAt_round hr]
    obtain ⟨before, after, hbefore⟩ := List.append_of_mem hopen
    rw [hbefore, List.append_assoc, List.cons_append, ← List.append_assoc] at hparts
    have hpost : lastDecided ∉ pre ∧ lastDecided ∉ post := by
      rw [hsplit, List.nodup_append] at hnodup
      exact ⟨fun hmem => hnodup.2.2 _ hmem _ (List.mem_cons_self ..) rfl, (List.nodup_cons.mp hnodup.2.1).1⟩
    have hlater : lastDecided ∉ after := by
      rw [hparts, List.nodup_append] at hnodup
      exact fun hmem => (List.nodup_cons.mp hnodup.2.1).1 (List.mem_append_left _ hmem)
    rw [hsplit] at hparts
    obtain ⟨-, -, rfl⟩ := (List.append_cons_inj_of_notMem hpost.1 hpost.2).mp hparts
    rw [hk, hbefore, rtakeWhile_ne_append hlater] at hslots
    rw [List.filter_append]
    exact hslots.trans (List.prefix_append ..)

/-! ### The committers of a builder -/

section Builder
variable {b : UniversalCommitterBuilder}

theorem mem_build (hwave : 0 < b.waveLength) {o : BaseCommitterOptions} (h : o ∈ b.build) :
    o.waveLength = b.waveLength ∧ o.leaderOffset < b.numberOfLeaders ∧ o.roundOffset < b.waveLength := by
  unfold UniversalCommitterBuilder.build at h
  dsimp only at h
  split at h
  · obtain ⟨roundOffset, hround, h⟩ := List.mem_flatMap.mp h
    obtain ⟨leaderOffset, hleader, rfl⟩ := List.mem_map.mp h
    exact ⟨rfl, List.mem_range.mp hleader, List.mem_range.mp hround⟩
  · obtain ⟨leaderOffset, hleader, rfl⟩ := List.mem_map.mp h
    exact ⟨rfl, List.mem_range.mp hleader, hwave⟩

/-- No two committers have both offsets in common. -/
theorem build_pairwise : b.build.Pairwise fun o o' =>
    ¬ (o.roundOffset = o'.roundOffset ∧ o.leaderOffset = o'.leaderOffset) := by
  have hleaders : ∀ roundOffset : Round, ((List.range b.numberOfLeaders).map fun leaderOffset =>
      { waveLength := b.waveLength, leaderOffset, roundOffset : BaseCommitterOptions }).Pairwise fun o o' =>
        ¬ (o.roundOffset = o'.roundOffset ∧ o.leaderOffset = o'.leaderOffset) := by
    intro roundOffset
    rw [List.pairwise_map]
    exact List.pairwise_lt_range.imp fun hlt h => hlt.ne h.2
  unfold UniversalCommitterBuilder.build
  dsimp only
  split
  · rw [List.pairwise_flatMap]
    refine ⟨fun roundOffset _ => hleaders roundOffset, List.pairwise_lt_range.imp fun hlt o ho o' ho' h => ?_⟩
    obtain ⟨_, -, rfl⟩ := List.mem_map.mp ho
    obtain ⟨_, -, rfl⟩ := List.mem_map.mp ho'
    exact hlt.ne h.1
  · exact hleaders 0

/-- A committer leads the rounds that are its offset modulo the wave. -/
theorem roundOffset_of_electLeader {c : Committee} {o : BaseCommitterOptions} (ho : o.roundOffset < o.waveLength)
    {round : Round} {slot : Slot} (h : electLeader c o round = some slot) :
    round % o.waveLength = o.roundOffset ∧ slot = ⟨round, electLeaderIndex c round o.leaderOffset⟩ := by
  unfold electLeader at h
  split at h
  · cases h
  · rename_i hround
    rw [not_ne_iff] at hround
    refine ⟨?_, (Option.some.inj h).symm⟩
    conv_lhs => rw [← hround]
    rw [BaseCommitterOptions.leaderRound, Nat.mul_add_mod_self_right, Nat.mod_eq_of_lt ho]

/-- **A slot is elected once.** -/
theorem schedule_nodup {c : Committee} (hwave : 0 < b.waveLength) (hleaders : b.numberOfLeaders ≤ c.size) {n : Nat}
    (hfit : n + b.numberOfLeaders ≤ u32Size) : (schedule c b.build 0 n).Nodup := by
  rw [schedule, List.nodup_flatMap]
  have hrounds : (List.range' 0 n).Pairwise (· < ·) := List.pairwise_lt_range' 1
  refine ⟨fun round hround => ?_, hrounds.imp fun hlt slot hslot hslot' => ?_⟩
  · rw [slotsAt, List.Nodup, List.pairwise_filterMap]
    refine build_pairwise.imp_of_mem fun {o o'} ho ho' hne slot hslot slot' hslot' heq => hne ?_
    obtain ⟨hwave_o, hleader, hoffset⟩ := mem_build hwave ho
    obtain ⟨hwave_o', hleader', hoffset'⟩ := mem_build hwave ho'
    obtain ⟨hmod, rfl⟩ := roundOffset_of_electLeader (hwave_o.symm ▸ hoffset) hslot
    obtain ⟨hmod', rfl⟩ := roundOffset_of_electLeader (hwave_o'.symm ▸ hoffset') hslot'
    rw [hwave_o] at hmod
    rw [hwave_o'] at hmod'
    refine ⟨hmod.symm.trans hmod', ?_⟩
    have hindex : electLeaderIndex c round o.leaderOffset = electLeaderIndex c round o'.leaderOffset :=
      congrArg Slot.authority heq
    have hlt := (List.mem_range'_1.mp hround).2
    -- the sums do not wrap around, and differ by less than the size
    have hsum : ∀ offset : Nat, offset < b.numberOfLeaders → (round + offset) % u32Size = round + offset := by
      intro offset hoffset
      apply Nat.mod_eq_of_lt
      have harith : ∀ r : Nat, r < 0 + n → r + offset < u32Size := by omega
      exact harith round hlt
    rw [electLeaderIndex, electLeaderIndex, hsum _ hleader, hsum _ hleader'] at hindex
    have hmod_eq : o.leaderOffset % c.size = o'.leaderOffset % c.size := Nat.ModEq.add_left_cancel' round hindex
    rwa [Nat.mod_eq_of_lt (hleader.trans_le hleaders), Nat.mod_eq_of_lt (hleader'.trans_le hleaders)] at hmod_eq
  · exact hlt.ne ((slotsAt_round hslot).symm.trans (slotsAt_round hslot'))

theorem build_eq_cons (hwave : 0 < b.waveLength) (hleaders : 0 < b.numberOfLeaders) :
    ∃ rest, b.build = { waveLength := b.waveLength } :: rest := by
  obtain ⟨w, hw⟩ := Nat.exists_eq_add_of_lt hwave
  obtain ⟨l, hl⟩ := Nat.exists_eq_add_of_lt hleaders
  unfold UniversalCommitterBuilder.build
  dsimp only
  rw [hw, hl, Nat.zero_add, Nat.zero_add, List.range_succ_eq_map, List.range_succ_eq_map]
  split
  · exact ⟨_, rfl⟩
  · exact ⟨_, rfl⟩

/-- The first slot of the schedule is the one a node starts from. -/
theorem schedule_eq_cons {c : Committee} (hwave : 0 < b.waveLength) (hleaders : 0 < b.numberOfLeaders) (n : Nat) :
    ∃ post, schedule c b.build 0 (n + 1) = ⟨genesisRound, 0⟩ :: post := by
  obtain ⟨rest, hbuild⟩ := build_eq_cons hwave hleaders
  have helect : electLeader c { waveLength := b.waveLength } 0 = some ⟨genesisRound, 0⟩ := by
    simp [electLeader, BaseCommitterOptions.leaderRound, BaseCommitterOptions.waveNumber, electLeaderIndex, genesisRound]
  have hslots : slotsAt c b.build 0 = ⟨genesisRound, 0⟩ :: slotsAt c rest 0 := by
    rw [hbuild]
    exact List.filterMap_cons_some helect
  rw [schedule, List.range'_succ, List.flatMap_cons, hslots, List.cons_append]
  exact ⟨_, rfl⟩

/-! ### Runs -/

/-- Call after call, each from the last decided slot. -/
def decideAll (committers : List BaseCommitterOptions) : Slot → List DagState → Except Panic (List DecidedLeader)
  | _, [] => .ok []
  | lastDecided, dag :: rest => do
    let decided ← dag.tryDecide committers lastDecided
    let more ← decideAll committers ((decided.getLast?.map DecidedLeader.slot).getD lastDecided) rest
    pure (decided ++ more)

/-- A first part of the kept elements ends at an element of the list. -/
theorem exists_split_of_prefix_filter {α : Type} {p : α → Bool} {l q : List α} (h : q <+: l.filter p) {x : α}
    (hx : q.getLast? = some x) :
    ∃ before after, l = before ++ x :: after ∧ q = before.filter p ++ [x] ∧ p x = true := by
  induction l generalizing q with
  | nil =>
    obtain rfl := List.prefix_nil.mp h
    cases hx
  | cons y rest ih =>
    cases hy : p y with
    | false =>
      rw [List.filter_cons_of_neg (by simp [hy])] at h
      obtain ⟨before, after, rfl, rfl, hpx⟩ := ih h hx
      refine ⟨y :: before, after, rfl, ?_, hpx⟩
      rw [List.filter_cons_of_neg (by simp [hy])]
    | true =>
      rw [List.filter_cons_of_pos hy] at h
      cases q with
      | nil => cases hx
      | cons z more =>
        obtain ⟨rfl, hmore⟩ := List.cons_prefix_cons.mp h
        cases more with
        | nil =>
          obtain rfl := Option.some.inj hx
          exact ⟨[], rest, rfl, rfl, hy⟩
        | cons z' more =>
          rw [List.getLast?_cons_cons] at hx
          obtain ⟨before, after, rfl, hbefore, hpx⟩ := ih hmore hx
          refine ⟨z :: before, after, rfl, ?_, hpx⟩
          rw [hbefore, List.filter_cons_of_pos hy, List.cons_append]

theorem decideAll_follows {c : Committee} {committers : List BaseCommitterOptions} {n : Nat}
    (hnodup : (schedule c committers 0 (n + 1)).Nodup) (hn : n < u32Size) {dags : List DagState}
    (hdags : ∀ dag ∈ dags, dag.committee = c ∧ dag.highestAcceptedRound ≤ n) {pre post : List Slot}
    {lastDecided : Slot} (hsplit : schedule c committers 0 (n + 1) = pre ++ lastDecided :: post)
    {decided : List DecidedLeader} (h : decideAll committers lastDecided dags = .ok decided) :
    decided.map DecidedLeader.slot <+: post.filter fun slot => decide (slot.round ≠ genesisRound) := by
  induction dags generalizing pre post lastDecided decided with
  | nil =>
    obtain rfl := Except.ok.inj h
    exact List.nil_prefix
  | cons dag rest ih =>
    rw [decideAll] at h
    obtain ⟨first, hfirst, h⟩ := except_bind_ok_iff.mp h
    obtain ⟨more, hmore, h⟩ := except_bind_ok_iff.mp h
    obtain rfl := Except.ok.inj h
    obtain ⟨hcommittee, hhighest⟩ := hdags dag (List.mem_cons_self ..)
    have hrest : ∀ dag ∈ rest, dag.committee = c ∧ dag.highestAcceptedRound ≤ n :=
      fun dag hdag => hdags dag (List.mem_cons_of_mem _ hdag)
    have hlt : dag.highestAcceptedRound - 2 < n + 1 := Nat.lt_succ_of_le ((Nat.sub_le ..).trans hhighest)
    rw [← hcommittee] at hnodup hsplit
    have hslots := tryDecide_follows (hhighest.trans_lt hn) hnodup hlt hsplit hfirst
    rw [hcommittee] at hnodup hsplit
    cases hlast : first.getLast? with
    | none =>
      obtain rfl := List.getLast?_eq_none_iff.mp hlast
      exact ih hrest hsplit hmore
    | some d =>
      rw [hlast] at hmore
      have hslot : (first.map DecidedLeader.slot).getLast? = some d.slot := by
        rw [List.getLast?_map, hlast]
        rfl
      obtain ⟨before, after, rfl, hbefore, hkept⟩ := exists_split_of_prefix_filter hslots hslot
      have hsplit' : schedule c committers 0 (n + 1) = (pre ++ lastDecided :: before) ++ d.slot :: after := by
        rw [hsplit, List.append_assoc, List.cons_append]
      have hcons : (d.slot :: after).filter (fun slot => decide (slot.round ≠ genesisRound)) =
          d.slot :: after.filter fun slot => decide (slot.round ≠ genesisRound) := List.filter_cons_of_pos hkept
      rw [List.map_append, hbefore, List.filter_append, hcons, List.append_assoc, List.singleton_append,
        List.prefix_append_right_inj, List.prefix_cons_inj]
      exact ih hrest hsplit' hmore

end Builder

/-- **The decided slots run through the schedule.** However a committer is built, with leaders for
at most all authorities, its decisions over any number of calls on DAGs of a committee are about
the leader slots above genesis in their order, from the first on: no slot is left out and none is
decided twice. -/
theorem decisions_follow_schedule (b : UniversalCommitterBuilder) (c : Committee) (hwave : 0 < b.waveLength)
    (hleaders : 0 < b.numberOfLeaders) (hsize : b.numberOfLeaders ≤ c.size) {n : Nat}
    (hfit : n + 1 + b.numberOfLeaders ≤ u32Size) {dags : List DagState}
    (hdags : ∀ dag ∈ dags, dag.committee = c ∧ dag.highestAcceptedRound ≤ n) {decided : List DecidedLeader}
    (h : decideAll b.build ⟨genesisRound, 0⟩ dags = .ok decided) :
    decided.map DecidedLeader.slot <+: schedule c b.build 1 n ∧ (decided.map DecidedLeader.slot).Nodup := by
  have hnodup := schedule_nodup hwave hsize hfit
  obtain ⟨post, hpost⟩ := @schedule_eq_cons b c hwave hleaders n
  have hslots := @decideAll_follows c b.build n hnodup (by omega) dags hdags [] post _ hpost decided h
  have hparts : schedule c b.build 0 (n + 1) = slotsAt c b.build 0 ++ schedule c b.build 1 n := by
    rw [schedule, List.range'_succ, List.flatMap_cons]
    rfl
  -- above genesis are the rounds from 1 on
  have hlater : post.filter (fun slot => decide (slot.round ≠ genesisRound)) = schedule c b.build 1 n := by
    have hgenesis : (slotsAt c b.build 0).filter (fun slot => decide (slot.round ≠ genesisRound)) = [] := by
      rw [List.filter_eq_nil_iff]
      intro slot hslot
      simp [slotsAt_round hslot, genesisRound]
    have habove : (schedule c b.build 1 n).filter (fun slot => decide (slot.round ≠ genesisRound)) =
        schedule c b.build 1 n := by
      rw [List.filter_eq_self]
      intro slot hslot
      obtain ⟨round, hround, hslot⟩ := List.mem_flatMap.mp hslot
      have hpos := (List.mem_range'_1.mp hround).1
      rw [slotsAt_round hslot]
      exact decide_eq_true (Nat.one_le_iff_ne_zero.mp hpos)
    have hboth := congrArg (List.filter fun slot => decide (slot.round ≠ genesisRound)) (hpost.symm.trans hparts)
    rw [List.filter_append, hgenesis, habove, List.nil_append] at hboth
    exact hboth
  rw [hlater] at hslots
  rw [hparts] at hnodup
  exact ⟨hslots, (hslots.sublist.trans (List.sublist_append_right ..)).nodup hnodup⟩

/-- With pipelining every round of a chain has a leader; two calls decide those of six rounds. -/
theorem decisions_follow_schedule_pipelined :
    let pipelined : UniversalCommitterBuilder := { pipeline := true }
    let dags := [5, 8].map fun n =>
      (DagState.new (fun _ => 0) (Committee.equal 0)).acceptBlocks ((List.range n).map link)
    ∃ decided, decideAll pipelined.build ⟨genesisRound, 0⟩ dags = .ok decided ∧ decided.length = 6 ∧
      decided.map DecidedLeader.slot <+: schedule (Committee.equal 0) pipelined.build 1 8 := by
  intro pipelined dags
  have hlength : (decideAll pipelined.build ⟨genesisRound, 0⟩ dags).map List.length = .ok 6 := by decide +kernel
  have hdags : ∀ dag ∈ dags, dag.committee = Committee.equal 0 ∧ dag.highestAcceptedRound ≤ 8 := by
    have hrounds : ∀ dag ∈ dags, dag.highestAcceptedRound ≤ 8 := by decide +kernel
    intro dag hdag
    refine ⟨?_, hrounds dag hdag⟩
    rcases List.mem_pair.mp hdag with rfl | rfl
    · rfl
    · rfl
  cases hrun : decideAll pipelined.build ⟨genesisRound, 0⟩ dags with
  | error p =>
    rw [hrun] at hlength
    cases hlength
  | ok decided =>
    rw [hrun] at hlength
    refine ⟨decided, rfl, Except.ok.inj hlength, ?_⟩
    exact (decisions_follow_schedule pipelined (Committee.equal 0) (by decide) (by decide) (by decide) (by decide)
      hdags hrun).1

end DualOptimistic.Consensus
