import Mathlib.Data.List.Basic

/-! Encodings that can be read back.

A code is self-delimiting if a code word can be cut off whatever follows it. Words of one length
are, a list after its length is (`prefixed`), and so is a sequence of such words after their
number (`counted`). A sequence without its number is not: two strings that start with such
sequences agree exactly if one sequence goes on in what follows the other
(`flatMap_append_eq_iff`). -/
namespace DualOptimistic.Data
universe u v w

variable {α : Type u} {β : Type v} {f : α → List β} {P : α → Prop}

/-- The words of the elements in `P` can be cut off what follows them. -/
def SelfDelimiting (f : α → List β) (P : α → Prop) : Prop :=
  ∀ ⦃a a'⦄, P a → P a' → ∀ ⦃s s'⦄, f a ++ s = f a' ++ s' → a = a' ∧ s = s'

namespace SelfDelimiting

/-- Words of one length. -/
theorem of_length {n : Nat} (hlen : ∀ a, (f a).length = n)
    (hinj : ∀ ⦃a a'⦄, P a → P a' → f a = f a' → a = a') : SelfDelimiting f P := by
  intro a a' ha ha' s s' h
  obtain ⟨hword, hrest⟩ := List.append_inj h ((hlen a).trans (hlen a').symm)
  exact ⟨hinj ha ha' hword, hrest⟩

theorem comp {γ : Type w} {g : γ → α} (h : SelfDelimiting f P) (hg : Function.Injective g) :
    SelfDelimiting (fun x => f (g x)) (fun x => P (g x)) := by
  intro x x' hx hx' s s' heq
  obtain ⟨hword, hrest⟩ := h hx hx' heq
  exact ⟨hg hword, hrest⟩

/-- A list after its length. -/
theorem prefixed {len : Nat → List β} {bound : Nat} (h : SelfDelimiting len (· < bound)) :
    SelfDelimiting (fun l : List β => len l.length ++ l) (fun l => l.length < bound) := by
  intro l l' hl hl' s s' heq
  rw [List.append_assoc, List.append_assoc] at heq
  obtain ⟨hlen, hrest⟩ := h hl hl' heq
  exact List.append_inj hrest hlen

/-- As many words on either side. -/
theorem flatMap (h : SelfDelimiting f P) {l l' : List α} (hl : ∀ a ∈ l, P a) (hl' : ∀ a ∈ l', P a)
    (hlen : l.length = l'.length) {s s' : List β} (heq : l.flatMap f ++ s = l'.flatMap f ++ s') :
    l = l' ∧ s = s' := by
  induction l generalizing l' with
  | nil =>
    obtain rfl := List.length_eq_zero_iff.mp hlen.symm
    exact ⟨rfl, heq⟩
  | cons a rest ih =>
    cases l' with
    | nil => cases hlen
    | cons a' rest' =>
      rw [List.flatMap_cons, List.flatMap_cons, List.append_assoc, List.append_assoc] at heq
      obtain ⟨rfl, htail⟩ := h (hl a List.mem_cons_self) (hl' a' List.mem_cons_self) heq
      obtain ⟨rfl, hrest⟩ := ih (fun x hx => hl x (List.mem_cons_of_mem _ hx))
        (fun x hx => hl' x (List.mem_cons_of_mem _ hx)) (Nat.succ.inj hlen) htail
      exact ⟨rfl, hrest⟩

/-- A sequence of words after their number. -/
theorem counted {count : Nat → List β} {bound : Nat} (hcount : SelfDelimiting count (· < bound))
    (h : SelfDelimiting f P) :
    SelfDelimiting (fun l : List α => count l.length ++ l.flatMap f)
      (fun l => l.length < bound ∧ ∀ a ∈ l, P a) := by
  intro l l' hl hl' s s' heq
  rw [List.append_assoc, List.append_assoc] at heq
  obtain ⟨hlen, hrest⟩ := hcount hl.1 hl'.1 heq
  exact h.flatMap hl.2 hl'.2 hlen hrest

/-- **A sequence without its number**: two strings agree exactly if one sequence goes on in what
follows the other. -/
theorem flatMap_append_eq_iff (h : SelfDelimiting f fun _ => True) {l l' : List α} {s s' : List β} :
    l.flatMap f ++ s = l'.flatMap f ++ s' ↔
      (∃ more, l' = l ++ more ∧ s = more.flatMap f ++ s') ∨ ∃ more, l = l' ++ more ∧ s' = more.flatMap f ++ s := by
  constructor
  · intro heq
    induction l generalizing l' with
    | nil => exact .inl ⟨l', rfl, heq⟩
    | cons a rest ih =>
      cases l' with
      | nil => exact .inr ⟨a :: rest, rfl, heq.symm⟩
      | cons a' rest' =>
        rw [List.flatMap_cons, List.flatMap_cons, List.append_assoc, List.append_assoc] at heq
        obtain ⟨rfl, htail⟩ := h trivial trivial heq
        rcases ih htail with ⟨more, rfl, hs⟩ | ⟨more, rfl, hs⟩
        · exact .inl ⟨more, rfl, hs⟩
        · exact .inr ⟨more, rfl, hs⟩
  · rintro (⟨more, rfl, rfl⟩ | ⟨more, rfl, rfl⟩)
    · rw [List.flatMap_append, List.append_assoc]
    · rw [List.flatMap_append, List.append_assoc]

end SelfDelimiting

end DualOptimistic.Data
