import Mathlib.Data.Nat.Basic

/-! Channels between concurrent parties.

A broadcast channel keeps what was sent as far as its capacity goes, and its receiver reads at
its own pace: a receiver that was overtaken is told so, and goes on with the oldest item kept.
So what a receive passes by is the item it returns, or what was missed (`recv_passed`). A
mailbox keeps everything until it is read, and ends once it is empty and its senders are gone. -/
namespace DualOptimistic.Data

universe u

/-- A broadcast channel as one receiver has it. -/
structure Broadcast (α : Type u) where
  sent : List α
  /-- The item the receiver reads next. -/
  position : Nat
  position_le : position ≤ sent.length

/-- What a receiver of a broadcast channel gets. -/
inductive Received (α : Type u) where
  | item (x : α)
  | lagged (count : Nat)

namespace Broadcast
variable {α : Type u} (c : Broadcast α) (capacity : Nat)

def new : Broadcast α := ⟨[], 0, le_refl _⟩

def send (x : α) : Broadcast α where
  sent := c.sent ++ [x]
  position := c.position
  position_le := Nat.le_trans c.position_le (List.length_append ▸ Nat.le_add_right ..)

/-- The items that are not kept any more and were not read. -/
def missed : List α := (c.sent.take (c.sent.length - capacity)).drop c.position

/-- The next item, or word that items were missed; nothing if there is none yet. -/
def recv : Option (Received α × Broadcast α) :=
  if c.position + capacity < c.sent.length then
    some (.lagged (c.missed capacity).length, ⟨c.sent, c.sent.length - capacity, Nat.sub_le ..⟩)
  else if h : c.position < c.sent.length then some (.item c.sent[c.position], ⟨c.sent, c.position + 1, h⟩)
  else none

/-- What the receiver has read or missed. -/
def passed : List α := c.sent.take c.position

@[simp] theorem passed_send (x : α) : (c.send x).passed = c.passed :=
  List.take_append_of_le_length c.position_le

theorem missed_eq_nil (h : c.sent.length ≤ c.position + capacity) : c.missed capacity = [] := by
  refine List.drop_eq_nil_iff.mpr ?_
  rw [List.length_take]
  exact Nat.le_trans (Nat.min_le_left ..) (Nat.sub_le_of_le_add h)

/-- A receiver that missed something is told so. -/
theorem recv_lagged {c : Broadcast α} {capacity : Nat} (h : c.missed capacity ≠ []) :
    ∃ n c', c.recv capacity = some (.lagged n, c') := by
  have hlag : c.position + capacity < c.sent.length := by
    by_contra hle
    exact h (c.missed_eq_nil capacity (Nat.le_of_not_lt hle))
  exact ⟨_, _, if_pos hlag⟩

/-- **What a receive passes by.** -/
theorem recv_passed {c c' : Broadcast α} {capacity : Nat} {r : Received α}
    (h : c.recv capacity = some (r, c')) :
    c'.sent = c.sent ∧ ((∃ n, r = .lagged n ∧ c'.passed = c.passed ++ c.missed capacity) ∨
      ∃ x, r = .item x ∧ c'.passed = c.passed ++ [x]) := by
  unfold recv at h
  split_ifs at h with hlag hnext
  · obtain ⟨rfl, rfl⟩ := Prod.mk.inj (Option.some.inj h)
    refine ⟨rfl, .inl ⟨_, rfl, ?_⟩⟩
    have htake : c.passed = (c.sent.take (c.sent.length - capacity)).take c.position := by
      rw [List.take_take, Nat.min_eq_left (Nat.le_sub_of_add_le (Nat.le_of_lt hlag))]
      rfl
    rw [htake, missed, List.take_append_drop]
    rfl
  · obtain ⟨rfl, rfl⟩ := Prod.mk.inj (Option.some.inj h)
    exact ⟨rfl, .inr ⟨_, rfl, List.take_succ_eq_append_getElem hnext⟩⟩

end Broadcast

/-- A queue with any number of senders and one receiver. -/
structure Mailbox (α : Type u) where
  queue : List α
  /-- Some sender is left. -/
  isOpen : Bool

namespace Mailbox
variable {α : Type u}

def new : Mailbox α := ⟨[], true⟩

def send (m : Mailbox α) (x : α) : Mailbox α := { m with queue := m.queue ++ [x] }

def close (m : Mailbox α) : Mailbox α := { m with isOpen := false }

/-- The next item, or the end; nothing if neither is there yet. -/
def recv (m : Mailbox α) : Option (Option α × Mailbox α) :=
  match m.queue with
  | x :: rest => some (some x, { m with queue := rest })
  | [] => if m.isOpen then none else some (none, m)

end Mailbox

end DualOptimistic.Data
