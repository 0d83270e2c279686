import DualOptimistic.Scheduler.HandingOut
import DualOptimistic.Scheduler.Hysteresis
import DualOptimistic.Scheduler.OpenDispatch

/-! The early path when all goes well.

As long as no more rounds are open than the threshold, the scheduler is not paused, so nothing
that can be dispatched waits. If moreover a final commit comes only when every leader round up to
its own was committed early, then the queue has always gone past that round, and the final commit
is confirmed (`Smooth.confirmed`). -/
namespace DualOptimistic.Scheduler
open Data Consensus

/-! ### Batches and early commits -/

theorem lastSoft_mem {round : Round} {events : List ConsensusEvent} {e : ConsensusEvent}
    (h : lastSoft round events = some e) : e ∈ events :=
  (List.mem_filter.mp (List.mem_of_getLast? h)).1

/-- A batch is of an early commit that was taken. -/
theorem batch_of_soft (inputs : List Input) {b : TxBatch} (hb : b ∈ batches (PipelineScheduler.new.run inputs).1) :
    ∃ leader txs, .softCommit b.round leader txs ∈ consensusEvents inputs := by
  induction inputs using List.reverseRecOn with
  | nil => cases hb
  | append_singleton before input ih =>
    rw [PipelineScheduler.run_append, batches_append] at hb
    rcases List.mem_append.mp hb with hb | hb
    · obtain ⟨leader, txs, hmem⟩ := ih hb
      rw [consensusEvents_append]
      exact ⟨leader, txs, List.mem_append_left _ hmem⟩
    · cases input with
      | signal x => cases hb
      | event e =>
        cases e with
        | hardCommit subdag => cases hb
        | softCommit round leader txs =>
          have hb : b ∈ batches ((PipelineScheduler.new.run before).2.handleSoftCommit round txs).1 := by
            simpa [PipelineScheduler.run, PipelineScheduler.step, PipelineScheduler.handleConsensusEvent] using hb
          obtain ⟨out, hout, hadvanced, -⟩ := (PipelineScheduler.new.run before).2.sent_soft round txs
          rw [hout] at hb
          obtain ⟨item, hitem, rfl⟩ := List.mem_map.mp hb
          -- the item waited in the queue, with the last early commit of its round
          obtain ⟨l, hlast⟩ := ((run_tracks before).insert round leader txs).last (hadvanced.waited item hitem)
          rw [consensusEvents_append]
          exact ⟨l, _, lastSoft_mem hlast⟩

/-! ### One round -/

/-- The round is committed early once at most. -/
def OnceEarly (events : List ConsensusEvent) (round : Round) : Prop :=
  events.Pairwise fun e later => e.isSoft = true → later.isSoft = true → e.round = round → later.round ≠ round

theorem OnceEarly.of_append {events more : List ConsensusEvent} {round : Round}
    (h : OnceEarly (events ++ more) round) : OnceEarly events round :=
  (List.pairwise_append.mp h).1

/-- The entry of the round, while it waits, is not behind the next round to dispatch. -/
def Ahead (q : PendingQueue) (round : Round) : Prop :=
  (∃ k, q.nextDispatchRound = 3 * k) ∧
    ∀ txs, q.entries.get? round = some ⟨txs, .queued⟩ → q.nextDispatchRound ≤ round

theorem Ahead.dispatch {q q' : PendingQueue} {w : Nat} (h : Ahead q (3 * (w + 1))) {item : Round × List EthSignedTx}
    (hd : q.dispatch = some (item, q')) : Ahead q' (3 * (w + 1)) := by
  obtain ⟨hround, -, hnext, hafter⟩ := PendingQueue.dispatch_eq_some hd
  obtain ⟨⟨k, hk⟩, hahead⟩ := h
  have hnext' : q'.nextDispatchRound = 3 * (k + 1) := by
    rw [hnext, hround, hk]
    rfl
  refine ⟨⟨k + 1, hnext'⟩, fun txs hget => ?_⟩
  rw [hafter] at hget
  split_ifs at hget with hitem
  · cases hget
  · -- it is another round that is dispatched
    have hle := hahead txs hget
    rw [hround, hk] at hitem
    rw [hk] at hle
    rw [hnext']
    have harith : ∀ m n : Nat, 3 * m ≤ 3 * n → ¬ 3 * n = 3 * m → 3 * (m + 1) ≤ 3 * n := by omega
    exact harith k (w + 1) hle hitem

theorem Ahead.drain {q : PendingQueue} {w : Nat} (h : Ahead q (3 * (w + 1))) : Ahead q.drainDispatchable.2 (3 * (w + 1)) :=
  @PendingQueue.drain_keeps (fun _ q => Ahead q (3 * (w + 1))) (fun hq hd => hq.dispatch hd) _ [] q h

/-- **A round committed early once** is dispatched when the queue goes past it. -/
theorem ahead_ranOn {events : List ConsensusEvent} {w : Nat} (honce : OnceEarly events (3 * (w + 1))) :
    Ahead (ranOn events).2.pending (3 * (w + 1)) := by
  induction events using List.reverseRecOn with
  | nil => exact ⟨⟨1, rfl⟩, fun txs hget => (by cases hget)⟩
  | append_singleton events e ih =>
    have hahead := ih honce.of_append
    rw [ranOn_append]
    cases e with
    | hardCommit subdag =>
      show Ahead ((ranOn events).2.handleHardCommit subdag).2.pending (3 * (w + 1))
      rw [((ranOn events).2.handleHardCommit_cases subdag).1]
      refine ⟨hahead.1, fun txs hget => ?_⟩
      rw [OrdMap.get?_erase] at hget
      split_ifs at hget
      exact hahead.2 txs hget
    | softCommit round leader txs =>
      have hinserted : Ahead ((ranOn events).2.pending.insert round txs) (3 * (w + 1)) := by
        refine ⟨hahead.1, fun txs' hget => ?_⟩
        rw [PendingQueue.insert, OrdMap.get?_insert] at hget
        split_ifs at hget with hr
        · -- what was dispatched before was committed early before
          by_contra hlt
          obtain ⟨k, hrounds, hnext⟩ := run_rounds (events.map .event)
          have hsent : 3 * (w + 1) ∈ (batches (ranOn events).1).map TxBatch.round := by
            have hlt : 3 * (w + 1) < 3 * (k + 1) := hnext ▸ Nat.lt_of_not_le hlt
            rw [ranOn, hrounds]
            exact List.mem_map_of_mem (List.mem_range.mpr (by omega))
          obtain ⟨b, hb, hround⟩ := List.mem_map.mp hsent
          obtain ⟨l, t, hmem⟩ := batch_of_soft _ hb
          rw [consensusEvents_events, hround] at hmem
          exact (List.pairwise_append.mp honce).2.2 _ hmem _ (List.mem_singleton_self _) rfl rfl rfl hr.symm
        · exact hahead.2 txs' hget
      rcases (ranOn events).2.handleSoftCommit_cases round txs with ⟨-, hpending⟩ | ⟨-, hpending⟩
      · show Ahead ((ranOn events).2.handleSoftCommit round txs).2.pending (3 * (w + 1))
        rw [hpending]
        exact hinserted
      · show Ahead ((ranOn events).2.handleSoftCommit round txs).2.pending (3 * (w + 1))
        rw [hpending]
        exact hinserted.drain

/-! ### Whole runs -/

/-- No more rounds are open than the threshold, at any time. -/
def FewOpen (events : List ConsensusEvent) : Prop :=
  ∀ done, done <+: events → (openRounds done).card ≤ PipelineScheduler.defaultThreshold

theorem FewOpen.of_append {events more : List ConsensusEvent} (h : FewOpen (events ++ more)) : FewOpen events :=
  fun done hdone => h done (hdone.trans (List.prefix_append ..))

/-- With few rounds open the scheduler runs, and all that can be dispatched is. -/
theorem FewOpen.dispatched {events : List ConsensusEvent} (h : FewOpen events) :
    (ranOn events).2.backpressure.isPaused = false ∧ (ranOn events).2.pending.dispatch = none := by
  induction events using List.reverseRecOn with
  | nil => exact ⟨rfl, rfl⟩
  | append_singleton events e ih =>
    obtain ⟨hrunning, hnone⟩ := ih h.of_append
    have hwaits : NothingWaits ((ranOn events).2.step (.event e)).2 := by
      have hbefore : NothingWaits (ranOn events).2 := (nothingWaits_iff _).mpr fun _ => hnone
      exact hbefore.step fun heq => (by cases heq)
    have hafter : (ranOn (events ++ [e])).2 = ((ranOn events).2.step (.event e)).2 := by
      rw [ranOn_append]
      rfl
    have hopen : (ranOn (events ++ [e])).2.backpressure.isPaused = false := by
      cases e with
      | hardCommit subdag => rw [isPaused_hard, hrunning]
      | softCommit round leader txs =>
        rw [← Bool.not_eq_true, isPaused_soft, hrunning]
        rintro (hlong | ⟨hpaused, -⟩)
        · exact absurd (h _ List.prefix_rfl) (Nat.not_le_of_lt hlong)
        · cases hpaused
    rw [nothingWaits_iff, ← hafter] at hwaits
    exact ⟨hopen, hwaits hopen⟩

/-- Events of which the waves up to `W` go well: few rounds are open at any time; each of those
rounds is committed early once at most; its final commit comes when every leader round up to it
was committed early; and a leader round has one final commit at most. -/
structure Smooth (W : Nat) (events : List ConsensusEvent) : Prop where
  few : FewOpen events
  once : ∀ w < W, OnceEarly events (3 * (w + 1))
  early : ∀ before subdag after, events = before ++ .hardCommit subdag :: after → ∀ w < W,
    3 * (w + 1) ≤ subdag.leader.round → ∃ leader txs, .softCommit (3 * (w + 1)) leader txs ∈ before
  final : events.Pairwise fun e later => e.isSoft = false → later.isSoft = false → e.round ≠ later.round

namespace Smooth
variable {W : Nat} {events more : List ConsensusEvent}

theorem of_append (h : Smooth W (events ++ more)) : Smooth W events where
  few := h.few.of_append
  once w hw := (h.once w hw).of_append
  early before subdag after hsplit := h.early before subdag (after ++ more) (by rw [hsplit]; simp)
  final := (List.pairwise_append.mp h.final).1

/-- The queue has gone past the final commits of these waves. -/
theorem past (h : Smooth W events) {w : Nat} (hw : w < W) {subdag : OurCommittedSubDag}
    (hround : subdag.leader.round = 3 * (w + 1)) (hmem : .hardCommit subdag ∈ events) :
    3 * (w + 1) < (ranOn events).2.pending.nextDispatchRound := by
  induction events using List.reverseRecOn generalizing w subdag with
  | nil => cases hmem
  | append_singleton events e ih =>
    rw [ranOn_append]
    refine (lt_next_step_iff (ranOn events).2 (.event e) _).mpr (.inl ?_)
    rcases List.mem_append.mp hmem with hmem | hmem
    · exact ih h.of_append hw hround hmem
    · obtain rfl := List.mem_singleton.mp hmem
      by_contra hge
      obtain ⟨k, -, hnext⟩ := run_rounds (events.map .event)
      have hnext : (ranOn events).2.pending.nextDispatchRound = 3 * (k + 1) := hnext
      have hk : k ≤ w := by
        have harith : ∀ m n : Nat, ¬ 3 * (n + 1) < 3 * (m + 1) → m ≤ n := by omega
        exact harith k w (hnext ▸ hge)
      -- the next round was committed early; nothing waits, so its final commit came after that
      obtain ⟨leader, txs, hsoft⟩ := h.early events subdag [] rfl k (hk.trans_lt hw)
        (hround ▸ Nat.mul_le_mul_left 3 (Nat.succ_le_succ hk))
      rw [← hnext] at hsoft
      have hclosed := (dispatch_run_eq_none (events.map .event)).mp h.of_append.few.dispatched.2
      obtain ⟨before, after, hsplit⟩ := List.append_of_mem hsoft
      obtain ⟨other, hother, hotherround⟩ := hclosed (before.map .event) leader txs (after.map .event)
        ((congrArg (List.map Input.event) hsplit).trans (by rw [List.map_append, List.map_cons]; rfl))
      obtain ⟨e, he, heq⟩ := List.mem_map.mp hother
      obtain rfl := Input.event.inj heq
      have hmem : .hardCommit other ∈ events := by
        rw [hsplit]
        exact List.mem_append_right _ (List.mem_cons_of_mem _ he)
      have hpast := ih h.of_append (hk.trans_lt hw) (hotherround.trans hnext) hmem
      rw [hnext] at hpast
      exact absurd hpast (Nat.lt_irrefl _)

/-- **A final commit of these waves is confirmed.** -/
theorem confirmed {subdag : OurCommittedSubDag} (h : Smooth W (events ++ [.hardCommit subdag])) {w : Nat} (hw : w < W)
    (hround : subdag.leader.round = 3 * (w + 1)) :
    ((ranOn events).2.handleHardCommit subdag).1 = .commit subdag.commitIndex subdag.leader.round := by
  have hpast : 3 * (w + 1) < (ranOn events).2.pending.nextDispatchRound := by
    have hlast := h.past hw hround (List.mem_append_right _ (List.mem_singleton_self _))
    rw [ranOn_append] at hlast
    rcases (lt_next_step_iff (ranOn events).2 (.event (.hardCommit subdag)) _).mp hlast with hlt | ⟨r, l, t, heq, -⟩
    · exact hlt
    · cases heq
  obtain ⟨leader, txs, hsoft⟩ := h.early events subdag [] rfl w hw hround.ge
  -- its early commit is in the queue
  have hentry : (ranOn events).2.pending.entries.get? (3 * (w + 1)) ≠ none := by
    intro hnone
    obtain ⟨before, after, hsplit⟩ := List.append_of_mem hsoft
    obtain ⟨other, hother, hotherround⟩ := (get?_run_eq_none (events.map .event) _).mp hnone (before.map .event)
      leader txs (after.map .event) (by rw [hsplit, List.map_append, List.map_cons])
    obtain ⟨e, he, heq⟩ := List.mem_map.mp hother
    obtain rfl := Input.event.inj heq
    have hmem : .hardCommit other ∈ events := by
      rw [hsplit]
      exact List.mem_append_right _ (List.mem_cons_of_mem _ he)
    exact (List.pairwise_append.mp h.final).2.2 _ hmem _ (List.mem_singleton_self _) rfl rfl
      (hotherround.trans hround.symm)
  obtain ⟨⟨txs', status⟩, hget⟩ := Option.ne_none_iff_exists'.mp hentry
  cases status with
  | queued => exact absurd ((ahead_ranOn (h.once w hw).of_append).2 txs' hget) (Nat.not_le_of_lt hpast)
  | dispatched =>
    rw [← hround] at hget
    unfold PipelineScheduler.handleHardCommit PendingQueue.onHardCommit
    rw [hget]

end Smooth

end DualOptimistic.Scheduler
