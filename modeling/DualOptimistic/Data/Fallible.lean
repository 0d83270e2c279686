import Mathlib.Tactic.Common

/-! Computations that may fail.

A sequence of two returns exactly if both do (`except_bind_ok_iff`), and fails exactly as the first
or, after it, the second (`except_bind_error_iff`). So what a long sequence did is read off its
result step by step, as for the filter whose predicate may fail (`filterOk_ok`). -/
namespace DualOptimistic.Data

universe u v

variable {ε : Type u} {α β : Type v} {x : Except ε α} {f : α → Except ε β}

theorem except_bind_ok_iff {b : β} : (x >>= f) = .ok b ↔ ∃ a, x = .ok a ∧ f a = .ok b := by
  cases x with
  | error e => exact ⟨fun h => (by cases h), fun h => (by obtain ⟨a, h, -⟩ := h; cases h)⟩
  | ok a =>
    constructor
    · exact fun h => ⟨a, rfl, h⟩
    · intro h
      obtain ⟨a', ha, h⟩ := h
      rwa [← Except.ok.inj ha] at h

theorem except_bind_error_iff {e : ε} :
    (x >>= f) = .error e ↔ x = .error e ∨ ∃ a, x = .ok a ∧ f a = .error e := by
  cases x with
  | error e' => simp [bind, Except.bind]
  | ok a => simp [bind, Except.bind]

/-- What comes after a computation that returned. -/
theorem except_ok_bind (a : α) (f : α → Except ε β) : (Except.ok a >>= f) = f a := rfl

/-- Keep the elements that pass, stopping at the first failure. -/
def filterOk {ε α : Type} (p : α → Except ε Bool) : List α → Except ε (List α)
  | [] => .ok []
  | x :: rest => do
    let keep ← p x
    let kept ← filterOk p rest
    pure (if keep then x :: kept else kept)

theorem filterOk_eq {ε α : Type} {p : α → Except ε Bool} {q : α → Bool} {l : List α}
    (h : ∀ x ∈ l, p x = .ok (q x)) : filterOk p l = .ok (l.filter q) := by
  induction l with
  | nil => rfl
  | cons x rest ih =>
    have hx := h x (List.mem_cons_self ..)
    have hrest := ih fun y hy => h y (List.mem_cons_of_mem _ hy)
    rw [filterOk, hx, hrest, List.filter_cons]
    rfl

/-- If the predicate fails nowhere, it was asked of everything kept, and said yes. -/
theorem filterOk_ok {ε α : Type} {p : α → Except ε Bool} {l kept : List α}
    (h : filterOk p l = .ok kept) : ∀ x ∈ kept, x ∈ l ∧ p x = .ok true := by
  induction l generalizing kept with
  | nil =>
    obtain rfl : [] = kept := Except.ok.inj h
    exact fun x hx => absurd hx List.not_mem_nil
  | cons y rest ih =>
    obtain ⟨keep, hkeep, h⟩ := except_bind_ok_iff.mp h
    obtain ⟨more, hmore, h⟩ := except_bind_ok_iff.mp h
    have hrest : ∀ x ∈ more, x ∈ y :: rest ∧ p x = .ok true := fun x hx =>
      ⟨List.mem_cons_of_mem _ (ih hmore x hx).1, (ih hmore x hx).2⟩
    obtain rfl : (if keep then y :: more else more) = kept := Except.ok.inj h
    split_ifs with hk
    · intro x hx
      rcases List.mem_cons.mp hx with rfl | hx
      · exact ⟨List.mem_cons_self .., by rw [hkeep, hk]⟩
      · exact hrest x hx
    · exact hrest

end DualOptimistic.Data
