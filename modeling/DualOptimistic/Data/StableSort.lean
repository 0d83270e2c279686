import Mathlib.Data.List.Sort

/-! Stable sorting by a relation with ties.

Two elements tie if each may stand before the other. An insertion sort keeps elements that
tie in order (`filter_insertionSort`), and a sorted list is determined by the ties of its
elements (`eq_of_ties`); so a list that is sorted already, and has the same
ties as another, is what the other sorts to. -/
namespace DualOptimistic.Data

universe u

section
variable {α : Type u} (r : α → α → Prop) [DecidableRel r]

/-- Each may stand before the other. -/
def ties (x y : α) : Bool := decide (r x y) && decide (r y x)

variable {r}

theorem ties_iff {x y : α} : ties r x y = true ↔ r x y ∧ r y x := by
  rw [ties, Bool.and_eq_true, decide_eq_true_iff, decide_eq_true_iff]

/-- **Sorting is stable**: elements that may all stand before each other keep their order. -/
theorem filter_insertionSort [IsTrans α r] {p : α → Bool} (hp : ∀ {a b}, p a = true → p b = true → r a b)
    (l : List α) : (l.insertionSort r).filter p = l.filter p := by
  have hsorted : (l.filter p).Pairwise r :=
    List.pairwise_of_forall_mem_list fun a ha b hb => hp (List.mem_filter.mp ha).2 (List.mem_filter.mp hb).2
  have hsub : (l.filter p).Sublist ((l.insertionSort r).filter p) := by
    have := (List.sublist_insertionSort hsorted List.filter_sublist).filter p
    simpa only [List.filter_filter, Bool.and_self] using this
  refine (hsub.eq_of_length ?_).symm
  exact ((List.perm_insertionSort r l).filter _).length_eq.symm

variable [Std.Total r]

theorem ties_self (x : α) : ties r x x = true := by
  have hself : r x x := or_self_iff.mp (Std.Total.total x x)
  exact ties_iff.mpr ⟨hself, hself⟩

/-- Lists with the same ties have the same elements. -/
theorem mem_iff_of_ties {l m : List α} (h : ∀ x, l.filter (ties r x) = m.filter (ties r x)) (x : α) :
    x ∈ l ↔ x ∈ m := by
  have hin : x ∈ l.filter (ties r x) ↔ x ∈ m.filter (ties r x) := by rw [h x]
  rwa [List.mem_filter, List.mem_filter, and_iff_left (ties_self x), and_iff_left (ties_self x)] at hin

/-- **A sorted list is determined by its ties.** -/
theorem eq_of_ties {l m : List α} (hl : l.Pairwise r) (hm : m.Pairwise r)
    (h : ∀ x, l.filter (ties r x) = m.filter (ties r x)) : l = m := by
  have hhead : ∀ {a : α} {l : List α}, (a :: l).Pairwise r → ∀ x ∈ a :: l, r a x := by
    intro a l hsorted x hx
    rcases List.mem_cons.mp hx with rfl | hx
    · exact (ties_iff.mp (ties_self x)).1
    · exact List.rel_of_pairwise_cons hsorted hx
  induction l generalizing m with
  | nil =>
    refine (List.eq_nil_iff_forall_not_mem.mpr fun x hx => ?_).symm
    exact absurd ((mem_iff_of_ties h x).mpr hx) List.not_mem_nil
  | cons a l ih =>
    cases m with
    | nil => exact absurd ((mem_iff_of_ties h a).mp (List.mem_cons_self ..)) List.not_mem_nil
    | cons b m =>
      -- each head stands before the other, so both head the list of their ties
      have hab : ties r a b = true :=
        ties_iff.mpr ⟨hhead hl b ((mem_iff_of_ties h b).mpr (List.mem_cons_self ..)),
          hhead hm a ((mem_iff_of_ties h a).mp (List.mem_cons_self ..))⟩
      have hfirst := h a
      rw [List.filter_cons_of_pos (ties_self a), List.filter_cons_of_pos hab] at hfirst
      obtain ⟨rfl, -⟩ := List.cons.inj hfirst
      have htail : ∀ x, l.filter (ties r x) = m.filter (ties r x) := by
        intro x
        have hx := h x
        by_cases hxa : ties r x a = true
        · rw [List.filter_cons_of_pos hxa, List.filter_cons_of_pos hxa] at hx
          exact (List.cons.inj hx).2
        · rwa [List.filter_cons_of_neg hxa, List.filter_cons_of_neg hxa] at hx
      rw [ih (List.pairwise_cons.mp hl).2 (List.pairwise_cons.mp hm).2 htail]

end

end DualOptimistic.Data
