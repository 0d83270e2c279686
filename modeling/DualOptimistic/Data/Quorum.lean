import Mathlib.Algebra.BigOperators.Group.Finset.Basic
import Mathlib.Algebra.Order.BigOperators.Group.Finset

/-! Weighted quorum systems.

A quorum is a set of members whose weight reaches a threshold chosen so that any
two quorums share more weight than may be faulty. `exists_common_correct` is the
only way the rest of the development uses it. -/
namespace DualOptimistic.Data

universe u

/-- Members with weights, a quorum threshold and a bound on the faulty weight. -/
structure QuorumSystem (α : Type u) where
  members : Finset α
  weight : α → ℕ
  threshold : ℕ
  faults : ℕ
  /-- Two quorums overlap in more than the faulty weight. -/
  overlap : ∑ a ∈ members, weight a + faults < 2 * threshold

namespace QuorumSystem
variable {α : Type u} (Q : QuorumSystem α)

/-- The weight of a set of members. -/
def total (A : Finset α) : ℕ := ∑ a ∈ A, Q.weight a

/-- A set of members whose weight reaches the threshold. -/
def IsQuorum (A : Finset α) : Prop := A ⊆ Q.members ∧ Q.threshold ≤ Q.total A

variable {Q}

theorem total_mono {A B : Finset α} (h : A ⊆ B) : Q.total A ≤ Q.total B :=
  Finset.sum_le_sum_of_subset h

theorem threshold_pos : 0 < Q.threshold := by
  have := Q.overlap
  omega

/-- A quorum has a member. -/
theorem IsQuorum.nonempty {A : Finset α} (h : Q.IsQuorum A) : A.Nonempty := by
  rw [Finset.nonempty_iff_ne_empty]
  rintro rfl
  have h0 : Q.threshold ≤ 0 := h.2
  have := Q.overlap
  omega

variable [DecidableEq α]

/-- Two quorums share more than the faulty weight. -/
theorem IsQuorum.faults_lt_inter {A B : Finset α} (hA : Q.IsQuorum A) (hB : Q.IsQuorum B) :
    Q.faults < Q.total (A ∩ B) := by
  have hsum : Q.total (A ∪ B) + Q.total (A ∩ B) = Q.total A + Q.total B := Finset.sum_union_inter
  have hunion : Q.total (A ∪ B) ≤ Q.total Q.members := total_mono (Finset.union_subset hA.1 hB.1)
  have hover : Q.total Q.members + Q.faults < 2 * Q.threshold := Q.overlap
  have := hA.2
  have := hB.2
  omega

/-- **Quorum intersection.** Two quorums share a member outside any set that
weighs no more than the fault bound. -/
theorem IsQuorum.exists_common_correct {A B bad : Finset α} (hA : Q.IsQuorum A) (hB : Q.IsQuorum B)
    (hbad : Q.total bad ≤ Q.faults) : ∃ a, a ∈ A ∧ a ∈ B ∧ a ∉ bad := by
  by_contra hnone
  have hsub : A ∩ B ⊆ bad := by
    intro a ha
    rw [Finset.mem_inter] at ha
    by_contra h
    exact hnone ⟨a, ha.1, ha.2, h⟩
  have hle : Q.total (A ∩ B) ≤ Q.total bad := total_mono hsub
  have hlt := hA.faults_lt_inter hB
  omega

end QuorumSystem

end DualOptimistic.Data
