import DualOptimistic.Data.Machine
import DualOptimistic.Scheduler.PendingQueue

/-! Runs of the queue on its own.

If every round is inserted once at most, and not after its final commit, then the queue is
determined by the calls and by what was drained: an entry is there from its insert to its
final commit, and is marked as soon as it was drained (`Accounts`). So every leader round is
drained once, in order and with what was inserted, and a final commit is confirmed exactly if
its round was drained and not committed before (`exactly_once`). -/
namespace DualOptimistic.Scheduler
open Data Consensus

/-- A call of the queue. -/
inductive QueueOp where
  | insert (round : Round) (txs : List EthSignedTx)
  | drain
  | hardCommit (round : Round) (commitIndex : Nat)
deriving DecidableEq

inductive QueueAnswer where
  | inserted
  | drained (items : List (Round × List EthSignedTx))
  | decided (decision : HardCommitDecision)
deriving DecidableEq

def queueMachine : Machine PendingQueue QueueOp QueueAnswer where
  step q op := match op with
    | .insert round txs => (.inserted, q.insert round txs)
    | .drain => (.drained q.drainDispatchable.1, q.drainDispatchable.2)
    | .hardCommit round commitIndex =>
      let answer := q.onHardCommit round commitIndex
      (.decided answer.1, answer.2)

/-- Everything drained in a trace. -/
def drainedItems (log : List (QueueOp × QueueAnswer)) : List (Round × List EthSignedTx) :=
  log.flatMap fun e => match e.2 with
    | .drained items => items
    | _ => []

/-- The round a call is about. -/
def QueueOp.round? : QueueOp → Option Round
  | insert round _ => some round
  | drain => none
  | hardCommit round _ => some round

/-- An insert comes after no call about its round. -/
def QueueOp.mayPrecede (op later : QueueOp) : Bool :=
  match later with
  | insert round _ => op.round? != some round
  | _ => true

/-- Every round is inserted once at most, and never after its final commit. -/
def InsertsOnce (ops : List QueueOp) : Prop := ops.Pairwise fun op later => op.mayPrecede later = true

instance (ops : List QueueOp) : Decidable (InsertsOnce ops) := inferInstanceAs (Decidable (List.Pairwise _ _))

theorem InsertsOnce.of_append {ops ops' : List QueueOp} (h : InsertsOnce (ops ++ ops')) : InsertsOnce ops :=
  (List.pairwise_append.mp h).1

theorem InsertsOnce.fresh {ops : List QueueOp} {round : Round} {txs : List EthSignedTx}
    (h : InsertsOnce (ops ++ [.insert round txs])) {op : QueueOp} (hop : op ∈ ops) : op.round? ≠ some round :=
  bne_iff_ne.mp ((List.pairwise_append.mp h).2.2 op hop _ (List.mem_singleton_self _))

/-- The queue after the calls `ops`, which have drained `drained`. -/
structure Accounts (ops : List QueueOp) (drained : List (Round × List EthSignedTx)) (q : PendingQueue) :
    Prop where
  rounds : ∃ k, drained.map Prod.fst = (List.range k).map (fun j => 3 * (j + 1)) ∧
    q.nextDispatchRound = 3 * (k + 1)
  inserted : ∀ item ∈ drained, .insert item.1 item.2 ∈ ops
  entry : ∀ {r entry}, q.entries.get? r = some entry ↔ .insert r entry.txs ∈ ops ∧
    (∀ i, .hardCommit r i ∉ ops) ∧ (entry.status = .dispatched ↔ r ∈ drained.map Prod.fst)

namespace Accounts
variable {ops : List QueueOp} {drained : List (Round × List EthSignedTx)} {q q' : PendingQueue}

theorem below (h : Accounts ops drained q) {r : Round} (hr : r ∈ drained.map Prod.fst) :
    r < q.nextDispatchRound := by
  obtain ⟨k, hrounds, hnext⟩ := h.rounds
  rw [hrounds, List.mem_map] at hr
  obtain ⟨j, hj, rfl⟩ := hr
  have hlt := List.mem_range.mp hj
  rw [hnext]
  exact Nat.mul_lt_mul_of_pos_left (Nat.add_lt_add_right hlt 1) (by decide)

theorem insert (h : Accounts ops drained q) {round : Round} {txs : List EthSignedTx}
    (honce : InsertsOnce (ops ++ [.insert round txs])) :
    Accounts (ops ++ [.insert round txs]) drained (q.insert round txs) := by
  have hfresh : ∀ txs', .insert round txs' ∉ ops := fun txs' hop => honce.fresh hop rfl
  have hopen : ∀ i, .hardCommit round i ∉ ops := fun i hop => honce.fresh hop rfl
  refine ⟨h.rounds, fun item hitem => List.mem_append_left _ (h.inserted item hitem), fun {r entry} => ?_⟩
  have hcommits : (∀ i, QueueOp.hardCommit r i ∉ ops ++ [.insert round txs]) ↔
      ∀ i, QueueOp.hardCommit r i ∉ ops := by
    simp only [List.mem_append, List.mem_singleton, reduceCtorEq, or_false]
  rw [PendingQueue.insert, OrdMap.get?_insert, hcommits, List.mem_append, List.mem_singleton]
  split_ifs with hr
  · subst hr
    have hdrained : r ∉ drained.map Prod.fst := by
      intro hmem
      obtain ⟨item, hitem, rfl⟩ := List.mem_map.mp hmem
      exact hfresh _ (h.inserted item hitem)
    constructor
    · intro heq
      obtain rfl := Option.some.inj heq
      exact ⟨.inr rfl, hopen, iff_of_false (fun hmarked => (by cases hmarked)) hdrained⟩
    · intro hentry
      obtain ⟨hinsert, -, hmarked⟩ := hentry
      rcases hinsert with hold | hnew
      · exact absurd hold (hfresh _)
      · obtain ⟨-, rfl⟩ := QueueOp.insert.inj hnew
        obtain ⟨txs, status⟩ := entry
        cases status with
        | queued => rfl
        | dispatched => exact absurd (hmarked.mp rfl) hdrained
  · rw [h.entry]
    refine and_congr_left fun _ => ?_
    constructor
    · exact .inl
    · intro hinsert
      rcases hinsert with hold | hnew
      · exact hold
      · exact absurd (QueueOp.insert.inj hnew).1 hr

theorem dispatch (h : Accounts ops drained q) {item : Round × List EthSignedTx}
    (hd : q.dispatch = some (item, q')) : Accounts ops (drained ++ [item]) q' := by
  obtain ⟨hround, hget, hnext, hafter⟩ := PendingQueue.dispatch_eq_some hd
  obtain ⟨hinsert, hopen, -⟩ := h.entry.mp hget
  obtain ⟨k, hrounds, hk⟩ := h.rounds
  refine ⟨⟨k + 1, ?_, ?_⟩, fun x hx => ?_, fun {r entry} => ?_⟩
  · rw [List.map_append, hrounds, List.range_succ, List.map_append, List.map_singleton, List.map_singleton,
      hround, hk]
  · rw [hnext, hround, hk]
    rfl
  · rcases List.mem_append.mp hx with hx | hx
    · exact h.inserted x hx
    · obtain rfl := List.mem_singleton.mp hx
      exact hinsert
  · rw [hafter, List.map_append, List.map_singleton, List.mem_append, List.mem_singleton]
    split_ifs with hr
    · subst hr
      have hmarked : (entry.status = .dispatched ↔ item.1 ∈ drained.map Prod.fst ∨ item.1 = item.1) ↔
          entry.status = .dispatched := by
        rw [eq_self_iff_true, or_true, iff_true]
      rw [hmarked]
      constructor
      · intro heq
        obtain rfl := Option.some.inj heq
        exact ⟨hinsert, hopen, rfl⟩
      · intro hentry
        obtain ⟨hinsert', -, hstatus⟩ := hentry
        -- the same entry, unmarked, is in the queue before
        have hdrained : item.1 ∉ drained.map Prod.fst := fun hmem => absurd (h.below hmem) (hround ▸ lt_irrefl _)
        have hold : q.entries.get? item.1 = some ⟨entry.txs, .queued⟩ :=
          h.entry.mpr ⟨hinsert', hopen, iff_of_false (fun hmarked => (by cases hmarked)) hdrained⟩
        rw [hget] at hold
        obtain ⟨htxs, -⟩ := PendingEntry.mk.inj (Option.some.inj hold)
        obtain ⟨txs, status⟩ := entry
        rw [htxs, show status = .dispatched from hstatus]
    · rw [h.entry, or_iff_left hr]

/-- Draining is no call of its own in a run of the scheduler. -/
theorem drainAll (h : Accounts ops drained q) :
    Accounts ops (drained ++ q.drainDispatchable.1) q.drainDispatchable.2 := by
  refine @PendingQueue.drain_keeps (fun out q => Accounts ops (drained ++ out) q) ?_ _ [] q ?_
  · intro out q item q' hout hd
    have := hout.dispatch hd
    rwa [List.append_assoc] at this
  · rwa [List.append_nil]

theorem drain (h : Accounts ops drained q) :
    Accounts (ops ++ [.drain]) (drained ++ q.drainDispatchable.1) q.drainDispatchable.2 := by
  have hmem : ∀ {op}, op ≠ .drain → (op ∈ ops ++ [.drain] ↔ op ∈ ops) := by
    intro op hop
    rw [List.mem_append, List.mem_singleton, or_iff_left hop]
  have hop : Accounts (ops ++ [.drain]) drained q := by
    refine ⟨h.rounds, fun item hitem => List.mem_append_left _ (h.inserted item hitem), ?_⟩
    intro r entry
    rw [h.entry, hmem (by simp)]
    refine and_congr_right fun _ => and_congr_left fun _ => forall_congr' fun i => ?_
    rw [hmem (by simp)]
  exact hop.drainAll

theorem hardCommit (h : Accounts ops drained q) (round : Round) (commitIndex : Nat) :
    Accounts (ops ++ [.hardCommit round commitIndex]) drained (q.onHardCommit round commitIndex).2 := by
  rw [PendingQueue.onHardCommit_queue]
  refine ⟨h.rounds, fun item hitem => List.mem_append_left _ (h.inserted item hitem), fun {r entry} => ?_⟩
  have hinsert : QueueOp.insert r entry.txs ∈ ops ++ [.hardCommit round commitIndex] ↔
      .insert r entry.txs ∈ ops := by
    simp only [List.mem_append, List.mem_singleton, reduceCtorEq, or_false]
  dsimp only
  rw [OrdMap.get?_erase, hinsert]
  split_ifs with hr
  · refine iff_of_false (fun hnone => (by cases hnone)) fun hentry => ?_
    refine hentry.2.1 commitIndex ?_
    rw [hr]
    exact List.mem_append_right _ (List.mem_singleton_self _)
  · rw [h.entry]
    refine and_congr_right fun _ => and_congr_left fun _ => forall_congr' fun i => not_congr ?_
    rw [List.mem_append, List.mem_singleton]
    refine (or_iff_left fun heq => hr ?_).symm
    exact (QueueOp.hardCommit.inj heq).1

/-- A final commit is confirmed if its round was drained and not committed before. -/
theorem decision (h : Accounts ops drained q) (round : Round) (commitIndex : Nat) :
    let d := (q.onHardCommit round commitIndex).1
    (d = .commit round commitIndex ↔ round ∈ drained.map Prod.fst ∧ ∀ i, .hardCommit round i ∉ ops) ∧
      (d ≠ .commit round commitIndex → d = .freshExecution round commitIndex) := by
  have hmarked : (∃ txs, q.entries.get? round = some ⟨txs, .dispatched⟩) ↔
      round ∈ drained.map Prod.fst ∧ ∀ i, .hardCommit round i ∉ ops := by
    constructor
    · intro hget
      obtain ⟨txs, hget⟩ := hget
      obtain ⟨-, hopen, hstatus⟩ := h.entry.mp hget
      exact ⟨hstatus.mp rfl, hopen⟩
    · intro hdrained
      obtain ⟨item, hitem, hround⟩ := List.mem_map.mp hdrained.1
      refine ⟨item.2, h.entry.mpr ⟨hround ▸ h.inserted item hitem, hdrained.2, ?_⟩⟩
      exact iff_of_true rfl hdrained.1
  intro d
  rw [← hmarked]
  unfold d PendingQueue.onHardCommit
  split
  · rename_i txs hget
    exact ⟨iff_of_true rfl ⟨txs, hget⟩, fun hne => absurd rfl hne⟩
  · rename_i hother
    refine ⟨iff_of_false (fun heq => (by cases heq)) fun hget => ?_, fun _ => rfl⟩
    obtain ⟨txs, hget⟩ := hget
    exact hother txs hget

end Accounts

/-! ### Whole runs -/

theorem drainedItems_append (l m : List (QueueOp × QueueAnswer)) :
    drainedItems (l ++ m) = drainedItems l ++ drainedItems m :=
  List.flatMap_append

theorem accounts_new (t : Nat) : Accounts [] [] (.new 3 t) where
  rounds := ⟨0, rfl, rfl⟩
  inserted item hitem := absurd hitem List.not_mem_nil
  entry := iff_of_false (fun hget => (by cases hget)) fun h => absurd h.1 List.not_mem_nil

theorem Accounts.step {log : List (QueueOp × QueueAnswer)} {q : PendingQueue}
    (h : InsertsOnce (log.map Prod.fst) → Accounts (log.map Prod.fst) (drainedItems log) q) (op : QueueOp)
    (honce : InsertsOnce ((log ++ [(op, (queueMachine.step q op).1)]).map Prod.fst)) :
    Accounts ((log ++ [(op, (queueMachine.step q op).1)]).map Prod.fst)
      (drainedItems (log ++ [(op, (queueMachine.step q op).1)])) (queueMachine.step q op).2 := by
  rw [List.map_append, List.map_singleton] at honce ⊢
  rw [drainedItems_append]
  have hq := h honce.of_append
  cases op with
  | insert round txs =>
    show Accounts _ (drainedItems log ++ []) _
    rw [List.append_nil]
    exact hq.insert honce
  | drain =>
    show Accounts _ (drainedItems log ++ (q.drainDispatchable.1 ++ [])) _
    rw [List.append_nil]
    exact hq.drain
  | hardCommit round commitIndex =>
    show Accounts _ (drainedItems log ++ []) _
    rw [List.append_nil]
    exact hq.hardCommit round commitIndex

/-- **Every run keeps its accounts.** -/
theorem run_accounts (t : Nat) {ops : List QueueOp} (h : InsertsOnce ops) :
    Accounts ops (drainedItems (queueMachine.trace (.new 3 t) ops)) (queueMachine.run (.new 3 t) ops) := by
  have hnew : InsertsOnce [] → Accounts [] [] (.new 3 t) := fun _ => accounts_new t
  have hrun := @Machine.run_keeps _ _ _ queueMachine
    (fun log q => InsertsOnce (log.map Prod.fst) → Accounts (log.map Prod.fst) (drainedItems log) q)
    (fun hlog op honce => Accounts.step hlog op honce) [] _ hnew ops
  rw [List.nil_append, Machine.trace_inputs] at hrun
  exact hrun h

/-- **Exactly once.** In a run of calls in which every round is inserted once at most and not
after its final commit: the leader rounds 3, 6, and so on are drained one after the other, each
with what was inserted for it; a final commit is confirmed exactly if its round was drained
before and not committed before, and is executed afresh otherwise; and after it the round is
not drained. -/
theorem exactly_once (t : Nat) {ops : List QueueOp} (h : InsertsOnce ops) :
    let log := queueMachine.trace (.new 3 t) ops
    (∃ k, (drainedItems log).map Prod.fst = (List.range k).map fun j => 3 * (j + 1)) ∧
      (∀ item ∈ drainedItems log, .insert item.1 item.2 ∈ ops) ∧
      ∀ before r i answer after, log = before ++ (.hardCommit r i, answer) :: after →
        (answer = .decided (.commit r i) ↔
          r ∈ (drainedItems before).map Prod.fst ∧ ∀ j, .hardCommit r j ∉ before.map Prod.fst) ∧
        (answer ≠ .decided (.commit r i) → answer = .decided (.freshExecution r i)) ∧
        r ∉ (drainedItems after).map Prod.fst := by
  intro log
  obtain ⟨⟨k, hrounds, -⟩, hinserted, -⟩ := run_accounts t h
  refine ⟨⟨k, hrounds⟩, hinserted, fun before r i answer after hsplit => ?_⟩
  refine and_assoc.mp ⟨?_, fun hdrained => ?_⟩
  · obtain ⟨ops₁, ops₂, rfl, rfl, rfl, -⟩ := Machine.trace_split_cons hsplit
    obtain ⟨hcommit, hfresh⟩ := (run_accounts t h.of_append).decision r i
    rw [Machine.trace_inputs]
    refine ⟨?_, fun hne => congrArg QueueAnswer.decided (hfresh fun heq => hne (congrArg _ heq))⟩
    rw [← hcommit]
    exact ⟨QueueAnswer.decided.inj, congrArg _⟩
  · -- the call that drained it found its entry, after the commit had removed it
    obtain ⟨item, hitem, hround⟩ := List.mem_map.mp hdrained
    obtain ⟨⟨op, a⟩, he, hmem⟩ := List.mem_flatMap.mp hitem
    obtain ⟨mid, rest, rfl⟩ := List.append_of_mem he
    rw [← List.cons_append, ← List.append_assoc] at hsplit
    obtain ⟨ops₁, ops₂, rfl, hbefore, rfl, -⟩ := Machine.trace_split_cons hsplit
    have haccounts := run_accounts t h.of_append
    have hcommitted : .hardCommit r i ∈ ops₁ := by
      rw [← queueMachine.trace_inputs (.new 3 t) ops₁, hbefore, List.map_append, List.map_cons]
      exact List.mem_append_right _ (List.mem_cons_self ..)
    cases op with
    | insert round txs => exact absurd hmem List.not_mem_nil
    | hardCommit round commitIndex => exact absurd hmem List.not_mem_nil
    | drain =>
      have hstored := ((PendingQueue.handedOut_drain _ _).mem item hmem).1
      obtain ⟨entry, hget⟩ := OrdMap.contains_iff.mp hstored
      rw [hround] at hget
      exact (haccounts.entry.mp hget).2.1 i hcommitted

/-- Inserted out of order, two rounds are drained in order, and each is confirmed once. -/
theorem exactly_once_two :
    let ops : List QueueOp := [.insert 6 [⟨[2]⟩], .drain, .insert 3 [⟨[1]⟩], .drain, .hardCommit 3 1,
      .hardCommit 3 2]
    InsertsOnce ops ∧
      drainedItems (queueMachine.trace (.new 3 16) ops) = [(3, [⟨[1]⟩]), (6, [⟨[2]⟩])] ∧
      ∀ before r i answer after, queueMachine.trace (.new 3 16) ops =
          before ++ (.hardCommit r i, answer) :: after → r ∉ (drainedItems after).map Prod.fst := by
  intro ops
  have honce : InsertsOnce ops := by decide
  exact ⟨honce, by decide +kernel,
    fun before r i answer after hsplit => ((exactly_once 16 honce).2.2 before r i answer after hsplit).2.2⟩

end DualOptimistic.Scheduler
