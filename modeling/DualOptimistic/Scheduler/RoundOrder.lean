import DualOptimistic.Scheduler.Hysteresis

/-! Do the rounds handed out go up?

A final commit that comes while the next round to dispatch is at or below its own is executed
afresh and leaves the next round where it was. From then on nothing that is dispatched early is
in order any more, so the order stands exactly if nothing is: the round left behind must not be
open when an early commit finds the scheduler running, and it runs exactly if no early commit
with too many rounds open is unreleased (`run_inOrder_iff`). -/
namespace DualOptimistic.Scheduler
open Data Consensus

/-- A final commit that finds the next round at or below its own leaves it behind for good: at
no later early commit is the round left behind open and everything released. -/
def StaysBehind (events : List ConsensusEvent) : Prop :=
  ∀ before subdag after, events = before ++ .hardCommit subdag :: after →
    (ranOn before).2.pending.nextDispatchRound ≤ subdag.leader.round →
    ∀ mid round leader txs rest, after = mid ++ .softCommit round leader txs :: rest →
      let seen := before ++ .hardCommit subdag :: mid ++ [.softCommit round leader txs]
      (ranOn before).2.pending.nextDispatchRound ∈ openRounds seen → ¬ AllReleased seen

/-! ### One early commit -/

section
variable {events : List ConsensusEvent} {outputs : List Output} {round : Round} {leader : BlockRef}
  {txs : List EthSignedTx}

/-- An early commit dispatches exactly if it finds everything released and the next round open. -/
theorem Handed.dispatchesAt_iff (h : Handed events outputs (ranOn events).2.pending)
    (honce : InsertsOnce ((events ++ [ConsensusEvent.softCommit round leader txs]).map queueOp)) :
    (ranOn events).2.DispatchesAt round txs ↔ AllReleased (events ++ [.softCommit round leader txs]) ∧
      (ranOn events).2.pending.nextDispatchRound ∈ openRounds (events ++ [.softCommit round leader txs]) := by
  have hflag : (ranOn events).2.pausedAt round txs =
      (ranOn (events ++ [.softCommit round leader txs])).2.backpressure.isPaused := by
    rw [ranOn_append]
    exact (isPaused_handleSoftCommit ..).symm
  rw [PipelineScheduler.DispatchesAt, hflag, running_iff]
  refine and_congr_right fun _ => ?_
  rw [← contains_insert_ranOn, OrdMap.contains_iff, ne_eq, PendingQueue.dispatch_eq_none]
  push Not
  constructor
  · intro hwaits
    obtain ⟨txs', hget⟩ := hwaits
    exact ⟨_, hget⟩
  · intro hentry
    obtain ⟨⟨txs', status⟩, hget⟩ := hentry
    cases status with
    | queued => exact ⟨txs', hget⟩
    | dispatched =>
      -- what was drained is below the next round
      obtain ⟨drained, -, hq⟩ := h.accounts
      rw [List.map_append] at honce
      have hdrained := ((hq.insert honce).entry.mp hget).2.2.mp rfl
      exact absurd (hq.below hdrained) (lt_irrefl _)

theorem next_soft_le : (ranOn events).2.pending.nextDispatchRound ≤
    (ranOn (events ++ [.softCommit round leader txs])).2.pending.nextDispatchRound := by
  obtain ⟨out, -, hadv, -⟩ := (ranOn events).2.sent_soft round txs
  rw [ranOn_append]
  show _ ≤ ((ranOn events).2.handleSoftCommit round txs).2.pending.nextDispatchRound
  rw [hadv.next]
  exact Nat.le_add_right ..

/-- The next round moves only with a dispatch. -/
theorem next_soft_of_not_dispatches (h : ¬ (ranOn events).2.DispatchesAt round txs) :
    (ranOn (events ++ [.softCommit round leader txs])).2.pending.nextDispatchRound =
      (ranOn events).2.pending.nextDispatchRound := by
  obtain ⟨out, -, hadv, hdispatches, -⟩ := (ranOn events).2.sent_soft round txs
  have hnil : out = [] := by
    by_contra hne
    obtain ⟨item, hitem⟩ := List.exists_mem_of_ne_nil _ hne
    exact h (hdispatches.mp (hadv.next_mem hitem))
  rw [ranOn_append]
  show ((ranOn events).2.handleSoftCommit round txs).2.pending.nextDispatchRound = _
  rw [hadv.next, hnil]
  rfl

end

theorem next_hard (events : List ConsensusEvent) (subdag : OurCommittedSubDag) :
    (ranOn (events ++ [.hardCommit subdag])).2.pending.nextDispatchRound =
      (ranOn events).2.pending.nextDispatchRound := by
  rw [ranOn_append]
  show ((ranOn events).2.handleHardCommit subdag).2.pending.nextDispatchRound = _
  rw [((ranOn events).2.handleHardCommit_cases subdag).1]

/-! ### The condition, event by event -/

section
variable {events : List ConsensusEvent}

theorem staysBehind_nil : StaysBehind [] := by
  intro before subdag after hsplit
  exact absurd hsplit.symm (List.append_ne_nil_of_right_ne_nil _ (List.cons_ne_nil _ _))

theorem staysBehind_soft {round : Round} {leader : BlockRef} {txs : List EthSignedTx} :
    StaysBehind (events ++ [.softCommit round leader txs]) ↔ StaysBehind events ∧
      ∀ before subdag after, events = before ++ .hardCommit subdag :: after →
        (ranOn before).2.pending.nextDispatchRound ≤ subdag.leader.round →
        (ranOn before).2.pending.nextDispatchRound ∈ openRounds (events ++ [.softCommit round leader txs]) →
        ¬ AllReleased (events ++ [.softCommit round leader txs]) := by
  constructor
  · intro h
    refine ⟨fun before subdag after hsplit hbehind mid r l t rest hafter => ?_,
      fun before subdag after hsplit hbehind => ?_⟩
    · refine h before subdag (after ++ [.softCommit round leader txs]) ?_ hbehind mid r l t
        (rest ++ [.softCommit round leader txs]) ?_
      · rw [hsplit, List.append_assoc, List.cons_append]
      · rw [hafter, List.append_assoc, List.cons_append]
    · have hlast := h before subdag (after ++ [.softCommit round leader txs])
        (by rw [hsplit, List.append_assoc, List.cons_append]) hbehind after round leader txs [] rfl
      rw [hsplit]
      exact hlast
  · intro h before subdag after hsplit hbehind mid r l t rest hafter
    rcases concat_eq_split.mp hsplit with ⟨-, heq, -⟩ | ⟨after', rfl, rfl⟩
    · cases heq
    · rcases concat_eq_split.mp hafter with ⟨rfl, heq, -⟩ | ⟨rest', -, rfl⟩
      · obtain ⟨rfl, rfl, rfl⟩ := ConsensusEvent.softCommit.inj heq
        exact h.2 before subdag mid rfl hbehind
      · exact h.1 before subdag _ rfl hbehind mid r l t rest' rfl

theorem staysBehind_hard {subdag : OurCommittedSubDag} :
    StaysBehind (events ++ [.hardCommit subdag]) ↔ StaysBehind events := by
  constructor
  · intro h before subdag' after hsplit hbehind mid r l t rest hafter
    refine h before subdag' (after ++ [.hardCommit subdag]) ?_ hbehind mid r l t (rest ++ [.hardCommit subdag]) ?_
    · rw [hsplit, List.append_assoc, List.cons_append]
    · rw [hafter, List.append_assoc, List.cons_append]
  · intro h before subdag' after hsplit hbehind mid r l t rest hafter
    rcases concat_eq_split.mp hsplit with ⟨-, -, rfl⟩ | ⟨after', rfl, rfl⟩
    · exact absurd hafter.symm (List.append_ne_nil_of_right_ne_nil _ (List.cons_ne_nil _ _))
    · rcases concat_eq_split.mp hafter with ⟨-, heq, -⟩ | ⟨rest', -, rfl⟩
      · cases heq
      · exact h before subdag' _ rfl hbehind mid r l t rest' rfl

/-! ### Whole runs -/

/-- The next round does not go back after a final commit, and does not move if that left it behind
for good. -/
def Stands (events : List ConsensusEvent) : Prop :=
  ∀ before subdag after, events = before ++ .hardCommit subdag :: after →
    (ranOn before).2.pending.nextDispatchRound ≤ (ranOn events).2.pending.nextDispatchRound ∧
      (StaysBehind events → (ranOn before).2.pending.nextDispatchRound ≤ subdag.leader.round →
        (ranOn events).2.pending.nextDispatchRound = (ranOn before).2.pending.nextDispatchRound)

theorem Stands.hard (h : Stands events) (subdag : OurCommittedSubDag) : Stands (events ++ [.hardCommit subdag]) := by
  intro before subdag' after hsplit
  rw [next_hard, staysBehind_hard]
  rcases concat_eq_split.mp hsplit with ⟨rfl, -, -⟩ | ⟨mid, rfl, rfl⟩
  · exact ⟨le_refl _, fun _ _ => rfl⟩
  · exact h before subdag' mid rfl

variable {outputs : List Output} {round : Round} {leader : BlockRef} {txs : List EthSignedTx}

/-- An early commit that does not dispatch behind a final commit is one at which what was left
behind stays there. -/
theorem Stands.dispatches_iff (h : Stands events) (hhanded : Handed events outputs (ranOn events).2.pending)
    (honce : InsertsOnce ((events ++ [ConsensusEvent.softCommit round leader txs]).map queueOp))
    (hstays : StaysBehind events) :
    ((ranOn events).2.DispatchesAt round txs → ∀ e ∈ events, e.isSoft = false →
      e.round < (ranOn events).2.pending.nextDispatchRound) ↔
    StaysBehind (events ++ [.softCommit round leader txs]) := by
  have hdispatches := hhanded.dispatchesAt_iff honce
  rw [staysBehind_soft, and_iff_right hstays]
  constructor
  · intro hahead before subdag after hsplit hbehind hopen hreleased
    have hstands := (h before subdag after hsplit).2 hstays hbehind
    rw [← hstands] at hopen hbehind
    have hmem : ConsensusEvent.hardCommit subdag ∈ events := by
      rw [hsplit]
      exact List.mem_append_right _ (List.mem_cons_self ..)
    exact absurd (hahead (hdispatches.mpr ⟨hreleased, hopen⟩) _ hmem rfl) (Nat.not_lt.mpr hbehind)
  · intro hcond hdispatch e he hfinal
    obtain ⟨hreleased, hopen⟩ := hdispatches.mp hdispatch
    cases e with
    | softCommit round leader txs => cases hfinal
    | hardCommit subdag =>
      obtain ⟨before, after, hsplit⟩ := List.append_of_mem he
      obtain ⟨hle, hstands⟩ := h before subdag after hsplit
      by_contra hnot
      have hbehind : (ranOn before).2.pending.nextDispatchRound ≤ subdag.leader.round :=
        hle.trans (Nat.le_of_not_lt hnot)
      rw [hstands hstays hbehind] at hopen
      exact hcond before subdag after hsplit hbehind hopen hreleased

theorem Stands.soft (h : Stands events) (hhanded : Handed events outputs (ranOn events).2.pending)
    (honce : InsertsOnce ((events ++ [ConsensusEvent.softCommit round leader txs]).map queueOp)) :
    Stands (events ++ [.softCommit round leader txs]) := by
  intro before subdag after hsplit
  rcases concat_eq_split.mp hsplit with ⟨-, heq, -⟩ | ⟨mid, rfl, hevents⟩
  · cases heq
  · obtain ⟨hle, hstands⟩ := h before subdag mid hevents
    refine ⟨hle.trans next_soft_le, fun hstays hbehind => ?_⟩
    obtain ⟨hbefore, hlast⟩ := staysBehind_soft.mp hstays
    have hsame := hstands hbefore hbehind
    rw [← hsame]
    apply next_soft_of_not_dispatches
    intro hdispatch
    obtain ⟨hreleased, hopen⟩ := (hhanded.dispatchesAt_iff honce).mp hdispatch
    rw [hsame] at hopen
    exact hlast before subdag mid hevents hbehind hopen hreleased

theorem run_handed (h : Sequenced events) :
    Handed events (ranOn events).1 (ranOn events).2.pending ∧ Stands events ∧
      (InOrder (ranOn events).1 ↔ StaysBehind events) := by
  induction events using List.reverseRecOn with
  | nil =>
    refine ⟨.new, fun before subdag after hsplit => ?_, iff_of_true inOrder_nil staysBehind_nil⟩
    exact absurd hsplit.symm (List.append_ne_nil_of_right_ne_nil _ (List.cons_ne_nil _ _))
  | append_singleton events e ih =>
    obtain ⟨hhanded, hstands, horder⟩ := ih h.of_append
    cases e with
    | softCommit round leader txs =>
      have hafter := hhanded.afterSoft h.early
      have hkeeps := @Handed.inOrder_soft _ _ _ hhanded round txs
      refine ⟨?_, hstands.soft hhanded h.early, ?_⟩
      · rw [ranOn_append]
        exact hafter
      · rw [ranOn_append]
        refine hkeeps.trans ?_
        rw [horder]
        constructor
        · intro hboth
          exact (hstands.dispatches_iff hhanded h.early hboth.1).mp hboth.2
        · intro hstays
          have hbefore := (staysBehind_soft.mp hstays).1
          exact ⟨hbefore, (hstands.dispatches_iff hhanded h.early hbefore).mpr hstays⟩
    | hardCommit subdag =>
      refine ⟨?_, hstands.hard subdag, ?_⟩
      · rw [ranOn_append]
        exact hhanded.afterHard h
      · rw [ranOn_append, staysBehind_hard, ← horder]
        exact hhanded.inOrder_hard h

end

/-- **Rounds handed out in order.** Whatever events come, with one early commit of a round at
most and none after its final commit, and final commits of leader rounds that go up: the
rounds handed out go up, and no batch comes after the decision of a later round, exactly if
what a final commit leaves behind stays behind: the next round, if it is not above that of the
final commit, is never again open at an early commit that finds everything released. -/
theorem run_inOrder_iff {events : List ConsensusEvent} (h : Sequenced events) :
    InOrder (PipelineScheduler.new.run (events.map .event)).1 ↔ StaysBehind events :=
  (run_handed h).2.2

/-- Two rounds in step. -/
theorem run_inOrder_two :
    let events := [earlyCommit 3, finalCommit 3 1, earlyCommit 6, finalCommit 6 2]
    Sequenced events ∧ InOrder (PipelineScheduler.new.run (events.map .event)).1 ∧
      handedOut (PipelineScheduler.new.run (events.map .event)).1 = [3, 6] := by
  intro events
  have hseq : Sequenced events := by
    refine ⟨by decide, by decide, fun e he hfinal => ?_⟩
    have hrounds : ∀ e ∈ events, e.isSoft = false → e.round = 3 ∨ e.round = 6 := by decide
    rcases hrounds e he hfinal with h | h
    · exact ⟨0, h⟩
    · exact ⟨1, h⟩
  refine ⟨hseq, (run_inOrder_iff hseq).mpr ?_, by decide +kernel⟩
  -- both final commits come with the next round already above theirs
  have hone : StaysBehind ([] ++ [earlyCommit 3]) :=
    staysBehind_soft.mpr ⟨staysBehind_nil, fun before subdag after hsplit =>
      absurd hsplit.symm (List.append_ne_nil_of_right_ne_nil _ (List.cons_ne_nil _ _))⟩
  refine @staysBehind_hard [_, _, _] _ |>.mpr ?_
  have htwo : StaysBehind [earlyCommit 3, finalCommit 3 1] := staysBehind_hard.mpr hone
  refine @staysBehind_soft [_, _] _ _ _ |>.mpr ⟨htwo, fun before subdag after hsplit hbehind => ?_⟩
  rcases (@concat_eq_split _ [earlyCommit 3] ..).mp hsplit with ⟨rfl, heq, -⟩ | ⟨mid, rfl, hearly⟩
  · obtain rfl := ConsensusEvent.hardCommit.inj heq
    exact absurd hbehind (by decide +kernel)
  · rcases (@concat_eq_split _ [] ..).mp hearly with ⟨-, heq, -⟩ | ⟨mid', -, hnil⟩
    · cases heq
    · exact absurd hnil.symm (List.append_ne_nil_of_right_ne_nil _ (List.cons_ne_nil _ _))

/-- Round 6 is committed, with round 3 skipped, and then handed out before a late round 3. -/
theorem handed_out_backwards :
    let events := [earlyCommit 6, finalCommit 6 1, earlyCommit 3]
    let outputs := (PipelineScheduler.new.run (events.map .event)).1
    Sequenced events ∧ handedOut outputs = [6, 3] ∧
      outputs = [.decision (.freshBatch ⟨6, 1, [], false⟩), .batch ⟨3, 1, [], true⟩] ∧ ¬ InOrder outputs := by
  intro events outputs
  have hout : handedOut outputs = [6, 3] := by decide +kernel
  refine ⟨⟨by decide, by decide, fun e he hfinal => ⟨1, ?_⟩⟩, hout, by decide +kernel, fun horder => ?_⟩
  · have hrounds : ∀ e ∈ events, e.isSoft = false → e.round = 6 := by decide
    exact hrounds e he hfinal
  · have hpair := horder.ascending
    rw [hout] at hpair
    exact absurd hpair (by decide)

end DualOptimistic.Scheduler
