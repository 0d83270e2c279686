import Mathlib.Order.Lattice
import Mathlib.Order.Defs.LinearOrder

/-! The last of the writes that are seen.

Writes stand at positions of a linear order, and a reader sees some of the positions. What it
reads is the write at the last position it sees that has one (`LastSeen`). A write after all
others is read from then on (`LastSeen.write`), and writes at the low positions may be merged
into one value underneath: what is left, over that value, reads the same (`LastSeen.cut`). -/
namespace DualOptimistic.Data

universe u v
variable {π : Type u} {α : Type v} [LinearOrder π]

/-- `result` is the last of the writes at positions seen, or none if there are none. -/
def LastSeen (sees : π → Prop) (writes : π → Option α) (result : Option α) : Prop :=
  (result = none ∧ ∀ p, sees p → writes p = none) ∨
    ∃ p, sees p ∧ result.isSome ∧ writes p = result ∧ ∀ q, p < q → sees q → writes q = none

namespace LastSeen
variable {sees : π → Prop} {writes writes' : π → Option α} {result result' : Option α}

theorem none (h : ∀ p, sees p → writes p = .none) : LastSeen sees writes .none := .inl ⟨rfl, h⟩

theorem some {p : π} {value : α} (hsees : sees p) (hvalue : writes p = .some value)
    (h : ∀ q, p < q → sees q → writes q = .none) : LastSeen sees writes (.some value) :=
  .inr ⟨p, hsees, rfl, hvalue, h⟩

theorem unique (h : LastSeen sees writes result) (h' : LastSeen sees writes result') : result = result' := by
  rcases h with ⟨rfl, hnone⟩ | ⟨p, hp, hsome, hvalue, hlast⟩
  · rcases h' with ⟨rfl, -⟩ | ⟨p, hp, hsome, hvalue, -⟩
    · rfl
    · rw [← hvalue, hnone p hp] at hsome
      cases hsome
  · rcases h' with ⟨-, hnone⟩ | ⟨p', hp', hsome', hvalue', hlast'⟩
    · rw [← hvalue, hnone p hp] at hsome
      cases hsome
    · rcases lt_trichotomy p p' with hlt | rfl | hlt
      · rw [← hvalue', hlast p' hlt hp'] at hsome'
        cases hsome'
      · rw [← hvalue, ← hvalue']
      · rw [← hvalue, hlast' p hlt hp] at hsome
        cases hsome

theorem congr (h : LastSeen sees writes result) (heq : ∀ p, sees p → writes' p = writes p) :
    LastSeen sees writes' result := by
  rcases h with ⟨rfl, hnone⟩ | ⟨p, hp, hsome, hvalue, hlast⟩
  · exact none fun p hp => (heq p hp).trans (hnone p hp)
  · exact .inr ⟨p, hp, hsome, (heq p hp).trans hvalue, fun q hq hsees => (heq q hsees).trans (hlast q hq hsees)⟩

/-- It matters only which of the writes are seen. -/
theorem sees_congr {sees' : π → Prop} (h : LastSeen sees writes result)
    (heq : ∀ p, (writes p).isSome → (sees' p ↔ sees p)) : LastSeen sees' writes result := by
  have hnone : ∀ p, (sees p → writes p = .none) → sees' p → writes p = .none := by
    intro p hp hsees
    by_contra hne
    exact hne (hp ((heq p (Option.isSome_iff_ne_none.mpr hne)).mp hsees))
  rcases h with ⟨rfl, hall⟩ | ⟨p, hp, hsome, hvalue, hlast⟩
  · exact none fun p hsees => hnone p (hall p) hsees
  · exact .inr ⟨p, (heq p (hvalue ▸ hsome)).mpr hp, hsome, hvalue, fun q hq hsees => hnone q (hlast q hq) hsees⟩

/-- **A write after all others** is what is read, if it writes at all. -/
theorem write (h : LastSeen sees writes result) {top : π} {value : Option α} (hsees : sees top)
    (habove : ∀ p, sees p → ¬ p < top → writes p = .none) :
    LastSeen sees (fun p => if p = top then value else writes p) (value.or result) := by
  cases value with
  | none =>
    refine h.congr fun p _ => ?_
    split_ifs with hp
    · rw [hp, habove top hsees (lt_irrefl top)]
    · rfl
  | some value =>
    refine some hsees (if_pos rfl) fun q hq hseen => ?_
    rw [if_neg hq.ne', habove q hseen hq.not_gt]

/-- **One more position** after all that are seen. -/
theorem extend {sees' : π → Prop} {top : π} (h : LastSeen sees writes result) (hlt : ∀ p, sees p → p < top)
    (hsees : ∀ p, sees' p ↔ sees p ∨ p = top) : LastSeen sees' writes ((writes top).or result) := by
  cases htop : writes top with
  | none =>
    refine h.sees_congr fun p hp => (hsees p).trans (or_iff_left ?_)
    rintro rfl
    rw [htop] at hp
    cases hp
  | some value =>
    refine some ((hsees top).mpr (.inr rfl)) htop fun q hq hseen => ?_
    rcases (hsees q).mp hseen with hseen | rfl
    · exact absurd (hlt q hseen) hq.not_gt
    · exact absurd hq (lt_irrefl q)

/-- A write that is seen hides those before it. -/
theorem hidden (h : LastSeen sees writes result) {top : π} (hsees : sees top) (htop : (writes top).isSome)
    (heq : ∀ p, ¬ p < top → writes' p = writes p) : LastSeen sees writes' result := by
  rcases h with ⟨-, hnone⟩ | ⟨p, hp, hsome, hvalue, hlast⟩
  · rw [hnone top hsees] at htop
    cases htop
  · have htop' : ¬ p < top := fun hlt => by
      rw [hlast top hlt hsees] at htop
      cases htop
    refine .inr ⟨p, hp, hsome, (heq p htop').trans hvalue, fun q hq hseen => ?_⟩
    exact (heq q fun hlt => htop' (hq.trans hlt)).trans (hlast q hq hseen)

/-- **The low writes merged**: what is read is read above them, or else is the last of them. -/
theorem cut {low : π → Prop} {merged : Option α} (hlow : ∀ p q, low q → p ≤ q → low p)
    (hseen : ∀ p, low p → sees p) (hcut : ∀ p, low p → writes' p = .none)
    (hkeep : ∀ p, ¬ low p → writes' p = writes p) (h : LastSeen sees writes result)
    (hmerged : LastSeen low writes merged) (hrest : LastSeen sees writes' result') :
    result = result'.or merged := by
  refine h.unique ?_
  rcases hrest with ⟨rfl, hnone⟩ | ⟨p, hp, hsome, hvalue, hlast⟩
  · -- nothing above: the last of the low writes is the last of all
    have hhigh : ∀ p, ¬ low p → sees p → writes p = .none :=
      fun p hp hsees => (hkeep p hp).symm.trans (hnone p hsees)
    rw [Option.none_or]
    rcases hmerged with ⟨rfl, hempty⟩ | ⟨p, hp, hsome, hvalue, hlast⟩
    · refine none fun p hsees => ?_
      by_cases hp : low p
      · exact hempty p hp
      · exact hhigh p hp hsees
    · refine .inr ⟨p, hseen p hp, hsome, hvalue, fun q hq hsees => ?_⟩
      by_cases hlowq : low q
      · exact hlast q hq hlowq
      · exact hhigh q hlowq hsees
  · have hpos : ¬ low p := fun hlowp => by
      rw [← hvalue, hcut p hlowp] at hsome
      cases hsome
    obtain ⟨value, rfl⟩ := Option.isSome_iff_exists.mp hsome
    refine some hp ((hkeep p hpos).symm.trans hvalue) fun q hq hsees => ?_
    rw [← hkeep q fun hlowq => hpos (hlow p q hlowq hq.le)]
    exact hlast q hq hsees

end LastSeen

end DualOptimistic.Data
