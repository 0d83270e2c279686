import DualOptimistic.Consensus.Node

/-! The buffer of early commits (`scheduler/src/pending_queue.rs`).

A queue dispatches the leader rounds one after the other, as far as they have come. What a
loop of `drain_dispatchable` does is one `dispatch` after another, so whatever a dispatch
keeps, draining keeps (`drain_keeps`). The checks of debug builds are left out: in a release
build a second insert at a round overwrites the first. Rounds stay far below the width of
their type. -/
namespace DualOptimistic.Scheduler
open Data Consensus

/-- Number of rounds between consecutive leader rounds. -/
def waveLength : Round := 3

inductive EntryStatus where
  | queued | dispatched
deriving DecidableEq

structure PendingEntry where
  txs : List EthSignedTx
  status : EntryStatus
deriving DecidableEq

inductive HardCommitDecision where
  /-- A SoftCommit for this round was already dispatched to the executor. -/
  | commit (round : Round) (commitIndex : Nat)
  /-- No SoftCommit was dispatched for this round. -/
  | freshExecution (round : Round) (commitIndex : Nat)
deriving DecidableEq

structure PendingQueue where
  entries : OrdMap Round PendingEntry
  /-- Next leader round that should be dispatched to the executor. -/
  nextDispatchRound : Round
  threshold : Nat

namespace PendingQueue

def new (firstLeaderRound : Round) (threshold : Nat) : PendingQueue := ⟨∅, firstLeaderRound, threshold⟩

/-- Buffer a SoftCommit payload. -/
def insert (q : PendingQueue) (round : Round) (txs : List EthSignedTx) : PendingQueue :=
  { q with entries := q.entries.insert round ⟨txs, .queued⟩ }

/-- One turn of the loop: the next round, if it waits in the queue, is marked and handed out. -/
def dispatch (q : PendingQueue) : Option ((Round × List EthSignedTx) × PendingQueue) :=
  match q.entries.get? q.nextDispatchRound with
  | some ⟨txs, .queued⟩ => some ((q.nextDispatchRound, txs),
      { q with
        entries := q.entries.modify q.nextDispatchRound fun entry => { entry with status := .dispatched }
        nextDispatchRound := q.nextDispatchRound + waveLength })
  | _ => none

/-- At most so many turns of the loop. -/
def drain : Nat → PendingQueue → List (Round × List EthSignedTx) × PendingQueue
  | 0, q => ([], q)
  | n + 1, q => match q.dispatch with
    | none => ([], q)
    | some (item, q') =>
      let more := drain n q'
      (item :: more.1, more.2)

/-- Drain all consecutive dispatchable entries. No round is handed out twice, so the loop
has no more turns than the queue has entries (`dispatch_drainDispatchable`). -/
def drainDispatchable (q : PendingQueue) : List (Round × List EthSignedTx) × PendingQueue :=
  q.drain q.entries.size

/-- Remove the entry of the round and say whether it had been dispatched. -/
def onHardCommit (q : PendingQueue) (round : Round) (commitIndex : Nat) : HardCommitDecision × PendingQueue :=
  let q' := { q with entries := q.entries.erase round }
  match q.entries.get? round with
  | some ⟨_, .dispatched⟩ => (.commit round commitIndex, q')
  | _ => (.freshExecution round commitIndex, q')

/-- Total number of entries, queued and dispatched. -/
def depth (q : PendingQueue) : Nat := q.entries.size

/-! ### One dispatch -/

variable {q q' : PendingQueue} {item : Round × List EthSignedTx}

theorem dispatch_eq_some (h : q.dispatch = some (item, q')) :
    item.1 = q.nextDispatchRound ∧ q.entries.get? item.1 = some ⟨item.2, .queued⟩ ∧
      q'.nextDispatchRound = item.1 + waveLength ∧
      ∀ r, q'.entries.get? r = if r = item.1 then some ⟨item.2, .dispatched⟩ else q.entries.get? r := by
  unfold dispatch at h
  split at h
  · rename_i txs hget
    obtain ⟨rfl, rfl⟩ := Prod.mk.inj (Option.some.inj h)
    refine ⟨rfl, hget, rfl, fun r => ?_⟩
    dsimp only
    rw [OrdMap.get?_modify]
    split_ifs with hr
    · rw [hget]
      rfl
    · rfl
  · cases h

/-- Something is dispatched if the next round waits. -/
theorem dispatch_eq_none : q.dispatch = none ↔
    ∀ txs, q.entries.get? q.nextDispatchRound ≠ some ⟨txs, .queued⟩ := by
  unfold dispatch
  split
  · rename_i txs hget
    exact iff_of_false (fun hnone => (by cases hnone)) fun hnot => hnot txs hget
  · rename_i hother
    exact iff_of_true rfl hother

/-! ### Draining -/

/-- **What a dispatch keeps, draining keeps.** -/
theorem drain_keeps {P : List (Round × List EthSignedTx) → PendingQueue → Prop}
    (hstep : ∀ {out q item q'}, P out q → q.dispatch = some (item, q') → P (out ++ [item]) q') (n : Nat)
    {out : List (Round × List EthSignedTx)} {q : PendingQueue} (h : P out q) :
    P (out ++ (q.drain n).1) (q.drain n).2 := by
  induction n generalizing out q with
  | zero => rwa [drain, List.append_nil]
  | succ n ih =>
    unfold drain
    cases hd : q.dispatch with
    | none => rwa [List.append_nil]
    | some next =>
      obtain ⟨item, q'⟩ := next
      have := ih (hstep h hd)
      rwa [List.append_assoc, List.singleton_append] at this

/-- A loop that did not use all its turns has nothing left to dispatch. -/
theorem dispatch_drain (n : Nat) (q : PendingQueue) :
    (q.drain n).1.length = n ∨ (q.drain n).2.dispatch = none := by
  induction n generalizing q with
  | zero => exact .inl rfl
  | succ n ih =>
    unfold drain
    cases hd : q.dispatch with
    | none => exact .inr hd
    | some next =>
      obtain ⟨item, q'⟩ := next
      rcases ih q' with hlen | hnone
      · exact .inl (congrArg (· + 1) hlen)
      · exact .inr hnone

/-- The rounds handed out since `q` held the entries: distinct rounds of `q`, all below the next. -/
structure HandedOut (q : PendingQueue) (out : List (Round × List EthSignedTx)) (q' : PendingQueue) : Prop where
  keys : ∀ r, q'.entries.contains r = q.entries.contains r
  mem : ∀ item ∈ out, q.entries.contains item.1 = true ∧ item.1 < q'.nextDispatchRound
  once : (out.map Prod.fst).Nodup

theorem HandedOut.dispatch {start : PendingQueue} {out : List (Round × List EthSignedTx)}
    (h : HandedOut start out q) (hd : q.dispatch = some (item, q')) : HandedOut start (out ++ [item]) q' := by
  obtain ⟨hround, hget, hnext, hafter⟩ := dispatch_eq_some hd
  have hlt : item.1 < q'.nextDispatchRound := by
    rw [hnext]
    exact Nat.lt_add_of_pos_right (by decide)
  refine ⟨fun r => ?_, fun x hx => ?_, ?_⟩
  · rw [← h.keys r, OrdMap.contains, hafter r]
    split_ifs with hr
    · rw [OrdMap.contains, hr, hget]
      rfl
    · rfl
  · rcases List.mem_append.mp hx with hx | hx
    · exact ⟨(h.mem x hx).1, (h.mem x hx).2.trans (hround ▸ hlt)⟩
    · obtain rfl := List.mem_singleton.mp hx
      refine ⟨?_, hlt⟩
      rw [← h.keys, OrdMap.contains, hget]
      rfl
  · rw [List.map_append]
    refine h.once.append (List.nodup_singleton _) ?_
    intro r hr hr'
    obtain ⟨x, hx, rfl⟩ := List.mem_map.mp hr
    exact absurd ((List.mem_singleton.mp hr').trans hround) (Nat.ne_of_lt (h.mem x hx).2)

theorem HandedOut.length_le {out : List (Round × List EthSignedTx)} (h : HandedOut q out q') :
    out.length ≤ q.entries.size := by
  have hsub : out.map Prod.fst ⊆ q.entries.keys := by
    intro r hr
    obtain ⟨x, hx, rfl⟩ := List.mem_map.mp hr
    exact OrdMap.contains_iff_mem_keys.mp (h.mem x hx).1
  have hle := (List.subperm_of_subset h.once hsub).length_le
  rwa [List.length_map, OrdMap.keys, List.length_map] at hle

theorem handedOut_drain (n : Nat) (q : PendingQueue) : HandedOut q (q.drain n).1 (q.drain n).2 := by
  have hstart : HandedOut q [] q := ⟨fun _ => rfl, fun _ h => absurd h List.not_mem_nil, List.nodup_nil⟩
  exact drain_keeps HandedOut.dispatch n hstart

/-- **Draining ends** with nothing left to dispatch. -/
theorem dispatch_drainDispatchable (q : PendingQueue) : q.drainDispatchable.2.dispatch = none := by
  rcases dispatch_drain q.entries.size q with hlen | hnone
  · -- one more round handed out would be one more than there are
    cases hd : q.drainDispatchable.2.dispatch with
    | none => rfl
    | some next =>
      have hmore := ((handedOut_drain q.entries.size q).dispatch hd).length_le
      rw [List.length_append, hlen] at hmore
      exact absurd hmore (Nat.not_succ_le_self _)
  · exact hnone

/-- Draining has taken the queue from `q` to `q'`: what it handed out waited in `q`, one leader
round after the other, and from the next round on nothing has changed. -/
structure Advanced (q : PendingQueue) (out : List (Round × List EthSignedTx)) (q' : PendingQueue) : Prop where
  rounds : out.map Prod.fst = (List.range out.length).map fun j => q.nextDispatchRound + 3 * j
  next : q'.nextDispatchRound = q.nextDispatchRound + 3 * out.length
  waited : ∀ item ∈ out, q.entries.get? item.1 = some ⟨item.2, .queued⟩
  rest : ∀ {r}, q'.nextDispatchRound ≤ r → q'.entries.get? r = q.entries.get? r

theorem Advanced.dispatch {start : PendingQueue} {out : List (Round × List EthSignedTx)}
    (h : Advanced start out q) (hd : q.dispatch = some (item, q')) : Advanced start (out ++ [item]) q' := by
  obtain ⟨hround, hget, hnext, hafter⟩ := dispatch_eq_some hd
  refine ⟨?_, ?_, fun x hx => ?_, fun {r} hr => ?_⟩
  · rw [List.map_append, h.rounds, List.length_append, List.length_singleton, List.range_succ, List.map_append,
      List.map_singleton, List.map_singleton, hround, h.next]
  · rw [hnext, hround, h.next, List.length_append]
    rfl
  · rcases List.mem_append.mp hx with hx | hx
    · exact h.waited x hx
    · obtain rfl := List.mem_singleton.mp hx
      rw [← h.rest hround.ge]
      exact hget
  · have hlt : item.1 < r := by
      refine lt_of_lt_of_le ?_ hr
      rw [hnext]
      exact Nat.lt_add_of_pos_right (by decide)
    rw [hafter, if_neg (Nat.ne_of_gt hlt)]
    exact h.rest (hround ▸ hlt.le)

theorem Advanced.refl (q : PendingQueue) : Advanced q [] q :=
  ⟨rfl, rfl, fun _ h => absurd h List.not_mem_nil, fun _ => rfl⟩

theorem advanced_drain (q : PendingQueue) : Advanced q q.drainDispatchable.1 q.drainDispatchable.2 :=
  drain_keeps Advanced.dispatch _ (Advanced.refl q)

theorem Advanced.mem_round_iff {out : List (Round × List EthSignedTx)} (h : Advanced q out q') {r : Round} :
    r ∈ out.map Prod.fst ↔ ∃ j < out.length, q.nextDispatchRound + 3 * j = r := by
  rw [h.rounds, List.mem_map]
  refine exists_congr fun j => ?_
  rw [List.mem_range]

/-- **How far draining gets**: past a round if all leader rounds up to it wait. -/
theorem lt_next_drain_iff (q : PendingQueue) (round : Round) :
    round < q.drainDispatchable.2.nextDispatchRound ↔ round < q.nextDispatchRound ∨
      ∀ j, q.nextDispatchRound + 3 * j ≤ round →
        ∃ txs, q.entries.get? (q.nextDispatchRound + 3 * j) = some ⟨txs, .queued⟩ := by
  have hadv := advanced_drain q
  have hnext := hadv.next
  constructor
  · intro hlt
    refine .inr fun j hj => ?_
    have hsmall : j < q.drainDispatchable.1.length := by
      rw [hnext] at hlt
      exact Nat.lt_of_mul_lt_mul_left (Nat.lt_of_add_lt_add_left (lt_of_le_of_lt hj hlt))
    obtain ⟨item, hitem, hround⟩ := List.mem_map.mp (hadv.mem_round_iff.mpr ⟨j, hsmall, rfl⟩)
    rw [← hround]
    exact ⟨item.2, hadv.waited item hitem⟩
  · intro h
    rcases h with hlt | hwait
    · rw [hnext]
      exact Nat.lt_of_lt_of_le hlt (Nat.le_add_right ..)
    · -- the loop ended before a round that does not wait
      by_contra hge
      have hle := Nat.le_of_not_lt hge
      obtain ⟨txs, hget⟩ := hwait _ (hnext ▸ hle)
      rw [← hnext, ← hadv.rest (le_refl _)] at hget
      exact dispatch_eq_none.mp (dispatch_drainDispatchable q) txs hget

theorem next_mem_drain (h : q.dispatch ≠ none) : q.nextDispatchRound ∈ q.drainDispatchable.1.map Prod.fst := by
  have hadv := advanced_drain q
  refine hadv.mem_round_iff.mpr ⟨0, Nat.pos_of_ne_zero fun hzero => h ?_, rfl⟩
  -- a loop without a turn leaves the next round as it was, and ends with nothing to dispatch
  have hnext : q.drainDispatchable.2.nextDispatchRound = q.nextDispatchRound := by
    rw [hadv.next, hzero]
    rfl
  refine dispatch_eq_none.mpr fun txs hget => ?_
  rw [← hadv.rest hnext.le, ← hnext] at hget
  exact dispatch_eq_none.mp (dispatch_drainDispatchable q) txs hget

theorem drain_eq_nil (h : q.dispatch = none) : q.drainDispatchable.1 = [] := by
  unfold drainDispatchable
  cases q.entries.size with
  | zero => rfl
  | succ n =>
    unfold drain
    rw [h]

/-- Where something is drained, the next round is. -/
theorem Advanced.next_mem {out : List (Round × List EthSignedTx)} (h : Advanced q out q')
    {item : Round × List EthSignedTx} (hitem : item ∈ out) : q.nextDispatchRound ∈ out.map Prod.fst :=
  h.mem_round_iff.mpr ⟨0, List.length_pos_of_mem hitem, rfl⟩

/-- What is drained goes up from the next round on. -/
theorem Advanced.ascending {out : List (Round × List EthSignedTx)} (h : Advanced q out q') :
    (out.map Prod.fst).Pairwise (· < ·) ∧
      ∀ item ∈ out, q.nextDispatchRound ≤ item.1 ∧ item.1 < q'.nextDispatchRound := by
  constructor
  · rw [h.rounds, List.pairwise_map]
    refine List.pairwise_lt_range.imp fun {i j} hij => ?_
    exact Nat.add_lt_add_left (Nat.mul_lt_mul_of_pos_left hij (by decide)) _
  · intro item hitem
    obtain ⟨j, hj, hround⟩ := h.mem_round_iff.mp (List.mem_map_of_mem hitem)
    rw [← hround, h.next]
    exact ⟨Nat.le_add_right .., Nat.add_lt_add_left (Nat.mul_lt_mul_of_pos_left hj (by decide)) _⟩

/-! ### Answering a final commit -/

theorem onHardCommit_queue (q : PendingQueue) (round : Round) (commitIndex : Nat) :
    (q.onHardCommit round commitIndex).2 = { q with entries := q.entries.erase round } := by
  unfold onHardCommit
  split <;> rfl

end PendingQueue

end DualOptimistic.Scheduler
