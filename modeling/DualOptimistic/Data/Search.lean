import DualOptimistic.Data.OrdMap
import Mathlib.Logic.Relation
import Mathlib.Data.Finset.Card

/-! Two graph searches over an arbitrary successor function.

`search` is the depth-first worklist that marks a node when it pushes it: it
visits exactly what the root reaches through unmarked nodes, each once
(`search_spec`). `sweep` is the frontier that always expands its greatest node
and stops at a downward-closed set: what is left is exactly what is reached
inside that set along edges that leave it last (`sweep_spec`). Both carry fuel;
`search_terminates` and `sweep_terminates` say how much is enough, and
`search_mono` that more does not matter. -/
namespace DualOptimistic.Data

universe u

section Search
variable {α : Type u} [DecidableEq α] (next : α → List α)

/-- Push the nodes not marked yet, in order, marking each; the last pushed is on top. -/
def push (seen : Finset α) (stack : List α) : List α → Finset α × List α
  | [] => (seen, stack)
  | x :: xs => if x ∈ seen then push seen stack xs else push (insert x seen) (x :: stack) xs

/-- Pop a node, visit it, push its unmarked successors, until the stack is empty.
Returns the nodes in the order they are popped and the marks. -/
def search : Nat → Finset α → List α → Option (List α × Finset α)
  | _, seen, [] => some ([], seen)
  | 0, _, _ :: _ => none
  | n + 1, seen, x :: stack =>
    (search n (push seen stack (next x)).1 (push seen stack (next x)).2).map
      fun r => (x :: r.1, r.2)

/-! ### Pushing -/

theorem mem_push_seen {seen : Finset α} {stack xs : List α} {y : α} :
    y ∈ (push seen stack xs).1 ↔ y ∈ seen ∨ y ∈ xs := by
  induction xs generalizing seen stack with
  | nil => simp [push]
  | cons x xs ih =>
    simp only [push]
    split_ifs with hx
    · rw [ih, List.mem_cons]
      constructor
      · rintro (h | h)
        · exact .inl h
        · exact .inr (.inr h)
      · rintro (h | rfl | h)
        · exact .inl h
        · exact .inl hx
        · exact .inr h
    · rw [ih, Finset.mem_insert, List.mem_cons]
      tauto

theorem mem_push_stack {seen : Finset α} {stack xs : List α} {y : α} :
    y ∈ (push seen stack xs).2 ↔ y ∈ stack ∨ (y ∈ xs ∧ y ∉ seen) := by
  induction xs generalizing seen stack with
  | nil => simp [push]
  | cons x xs ih =>
    simp only [push]
    split_ifs with hx
    · rw [ih, List.mem_cons]
      constructor
      · rintro (h | ⟨h, hn⟩)
        · exact .inl h
        · exact .inr ⟨.inr h, hn⟩
      · rintro (h | ⟨rfl | h, hn⟩)
        · exact .inl h
        · exact absurd hx hn
        · exact .inr ⟨h, hn⟩
    · rw [ih, List.mem_cons, List.mem_cons, Finset.mem_insert]
      constructor
      · rintro ((rfl | h) | ⟨h, hn⟩)
        · exact .inr ⟨.inl rfl, hx⟩
        · exact .inl h
        · exact .inr ⟨.inr h, fun hs => hn (.inr hs)⟩
      · rintro (h | ⟨rfl | h, hn⟩)
        · exact .inl (.inr h)
        · exact .inl (.inl rfl)
        · by_cases hxy : y = x
          · exact .inl (.inl hxy)
          · exact .inr ⟨h, fun hs => hs.elim hxy hn⟩

/-- Nodes marked from the start are never pushed. -/
theorem push_filter {C seen : Finset α} (hC : C ⊆ seen) (stack xs : List α) :
    push seen stack (xs.filter fun x => decide (x ∉ C)) = push seen stack xs := by
  induction xs generalizing seen stack with
  | nil => rfl
  | cons x xs ih =>
    rw [List.filter_cons]
    split_ifs with hx
    · simp only [push]
      split_ifs
      · exact ih hC stack
      · exact ih (hC.trans (Finset.subset_insert ..)) (x :: stack)
    · have hmem : x ∈ seen := hC (by simpa using hx)
      rw [ih hC stack, push, if_pos hmem]

theorem push_stack_nodup {seen : Finset α} {stack xs : List α} (hn : stack.Nodup)
    (hs : ∀ y ∈ stack, y ∈ seen) : (push seen stack xs).2.Nodup := by
  induction xs generalizing seen stack with
  | nil => exact hn
  | cons x xs ih =>
    simp only [push]
    split_ifs with hx
    · exact ih hn hs
    · refine ih (List.nodup_cons.mpr ⟨fun h => hx (hs x h), hn⟩) fun y hy => ?_
      rcases List.mem_cons.mp hy with rfl | hy
      · exact Finset.mem_insert_self ..
      · exact Finset.mem_insert_of_mem (hs y hy)

/-- Within a finite set of nodes, every push trades an unmarked node for a stack entry. -/
theorem push_measure {K seen : Finset α} {stack xs : List α} (hK : ∀ y ∈ xs, y ∈ K) :
    (K \ (push seen stack xs).1).card + (push seen stack xs).2.length =
      (K \ seen).card + stack.length := by
  induction xs generalizing seen stack with
  | nil => rfl
  | cons x xs ih =>
    have hxs : ∀ y ∈ xs, y ∈ K := fun y hy => hK y (List.mem_cons_of_mem _ hy)
    simp only [push]
    split_ifs with hx
    · exact ih hxs
    · rw [ih hxs, List.length_cons]
      have hmem : x ∈ K \ seen := Finset.mem_sdiff.mpr ⟨hK x (List.mem_cons_self ..), hx⟩
      have herase : K \ insert x seen = (K \ seen).erase x := by
        ext y
        simp only [Finset.mem_sdiff, Finset.mem_insert, Finset.mem_erase]
        tauto
      have hcard := Finset.card_erase_of_mem hmem
      have hpos : 0 < (K \ seen).card := Finset.card_pos.mpr ⟨x, hmem⟩
      rw [herase, hcard]
      omega

/-! ### What the search visits -/

variable {next}

/-- The search between two pops: `done` visited, the stack pending, everything
seen reached from the root through nodes outside `C`, and visited nodes expanded. -/
structure Searching (next : α → List α) (C : Finset α) (root : α) (done : List α)
    (seen : Finset α) (stack : List α) : Prop where
  nodup : (done ++ stack).Nodup
  fresh : ∀ y ∈ done ++ stack, y ∉ C
  marked : ∀ y, y ∈ seen ↔ y ∈ C ∨ y ∈ done ∨ y ∈ stack
  expanded : ∀ x ∈ done, ∀ y ∈ next x, y ∈ seen
  reached : ∀ y ∈ done ++ stack, Relation.ReflTransGen (fun a b => b ∈ next a ∧ b ∉ C) root y

theorem Searching.start {C : Finset α} {root : α} (hroot : root ∉ C) :
    Searching next C root [] (insert root C) [root] where
  nodup := by simp
  fresh := by simpa using hroot
  marked := by simp [or_comm]
  expanded := by simp
  reached := by
    intro y hy
    rw [List.nil_append, List.mem_singleton] at hy
    exact hy ▸ .refl

theorem Searching.pop {C : Finset α} {root x : α} {done stack : List α} {seen : Finset α}
    (h : Searching next C root done seen (x :: stack)) :
    Searching next C root (done ++ [x]) (push seen stack (next x)).1 (push seen stack (next x)).2 := by
  have hx : x ∈ done ++ x :: stack := by simp
  have hstack : ∀ y ∈ stack, y ∈ seen := fun y hy =>
    (h.marked y).mpr (.inr (.inr (List.mem_cons_of_mem _ hy)))
  obtain ⟨hnd, hns, hdisj⟩ := List.nodup_append.mp h.nodup
  refine ⟨?_, ?_, ?_, ?_, ?_⟩
  · refine List.nodup_append.mpr ⟨?_, ?_, ?_⟩
    · exact List.nodup_append.mpr ⟨hnd, List.nodup_singleton x, fun a ha b hb => by
        rw [List.mem_singleton.mp hb]
        exact hdisj a ha x (List.mem_cons_self ..)⟩
    · exact push_stack_nodup (List.nodup_cons.mp hns).2 hstack
    · -- a stack entry is an old one or unmarked, a visited node is marked
      rintro a ha b hb rfl
      rcases mem_push_stack.mp hb with hb | ⟨-, hb⟩
      · rcases List.mem_append.mp ha with ha | ha
        · exact hdisj a ha a (List.mem_cons_of_mem _ hb) rfl
        · rw [List.mem_singleton.mp ha] at hb
          exact (List.nodup_cons.mp hns).1 hb
      · refine hb ((h.marked a).mpr (.inr ?_))
        rcases List.mem_append.mp ha with ha | ha
        · exact .inl ha
        · exact .inr (by rw [List.mem_singleton.mp ha]; exact List.mem_cons_self ..)
  · intro y hy
    rcases List.mem_append.mp hy with hy | hy
    · rcases List.mem_append.mp hy with hy | hy
      · exact h.fresh y (List.mem_append_left _ hy)
      · rw [List.mem_singleton.mp hy]
        exact h.fresh x hx
    · rcases mem_push_stack.mp hy with hy | ⟨-, hy⟩
      · exact h.fresh y (List.mem_append_right _ (List.mem_cons_of_mem _ hy))
      · exact fun hC => hy ((h.marked y).mpr (.inl hC))
  · intro y
    rw [mem_push_seen, mem_push_stack, h.marked]
    simp only [List.mem_append, List.mem_cons, List.not_mem_nil, or_false]
    tauto
  · intro z hz y hy
    rw [mem_push_seen]
    rcases List.mem_append.mp hz with hz | hz
    · exact .inl (h.expanded z hz y hy)
    · rw [List.mem_singleton.mp hz] at hy
      exact .inr hy
  · intro y hy
    rcases List.mem_append.mp hy with hy | hy
    · rcases List.mem_append.mp hy with hy | hy
      · exact h.reached y (List.mem_append_left _ hy)
      · rw [List.mem_singleton.mp hy]
        exact h.reached x hx
    · rcases mem_push_stack.mp hy with hy | ⟨hnext, hfresh⟩
      · exact h.reached y (List.mem_append_right _ (List.mem_cons_of_mem _ hy))
      · exact (h.reached x hx).tail ⟨hnext, fun hC => hfresh ((h.marked y).mpr (.inl hC))⟩

theorem Searching.finish {C : Finset α} {root : α} {n : Nat} {done stack l : List α}
    {seen seen' : Finset α} (h : Searching next C root done seen stack)
    (hrun : search next n seen stack = some (l, seen')) :
    Searching next C root (done ++ l) seen' [] := by
  induction n generalizing done seen stack l with
  | zero =>
    cases stack with
    | nil =>
      simp only [search, Option.some.injEq, Prod.mk.injEq] at hrun
      obtain ⟨rfl, rfl⟩ := hrun
      simpa using h
    | cons x stack => simp [search] at hrun
  | succ n ih =>
    cases stack with
    | nil =>
      simp only [search, Option.some.injEq, Prod.mk.injEq] at hrun
      obtain ⟨rfl, rfl⟩ := hrun
      simpa using h
    | cons x stack =>
      simp only [search, Option.map_eq_some_iff, Prod.mk.injEq] at hrun
      obtain ⟨⟨l', s'⟩, hrun', rfl, rfl⟩ := hrun
      have := ih h.pop hrun'
      rwa [List.append_assoc, List.singleton_append] at this

/-- The search never removes a mark. -/
theorem search_marks {n : Nat} {stack l : List α} {seen seen' : Finset α}
    (hrun : search next n seen stack = some (l, seen')) : ∀ y ∈ seen, y ∈ seen' := by
  induction n generalizing seen stack l with
  | zero =>
    cases stack with
    | nil =>
      simp only [search, Option.some.injEq, Prod.mk.injEq] at hrun
      exact fun y hy => hrun.2 ▸ hy
    | cons x stack => simp [search] at hrun
  | succ n ih =>
    cases stack with
    | nil =>
      simp only [search, Option.some.injEq, Prod.mk.injEq] at hrun
      exact fun y hy => hrun.2 ▸ hy
    | cons x stack =>
      simp only [search, Option.map_eq_some_iff, Prod.mk.injEq] at hrun
      obtain ⟨⟨l', s'⟩, hrun', -, rfl⟩ := hrun
      exact fun y hy => ih hrun' y (mem_push_seen.mpr (.inl hy))

/-- **The depth-first search** from an unmarked root visits each node once, and
exactly those the root reaches through nodes outside the initial marks `C`; the
marks grow by exactly the visited nodes. -/
theorem search_spec {C : Finset α} {root : α} {n : Nat} {l : List α} {seen : Finset α}
    (hroot : root ∉ C) (hrun : search next n (insert root C) [root] = some (l, seen)) :
    l.Nodup ∧ (∀ y, y ∈ l ↔ Relation.ReflTransGen (fun a b => b ∈ next a ∧ b ∉ C) root y) ∧
      (∀ y ∈ l, y ∉ C) ∧ seen = C ∪ l.toFinset := by
  have h : Searching next C root ([] ++ l) seen [] := (Searching.start hroot).finish hrun
  rw [List.nil_append] at h
  have hclosed : ∀ y, Relation.ReflTransGen (fun a b => b ∈ next a ∧ b ∉ C) root y → y ∈ l := by
    intro y hy
    induction hy with
    | refl =>
      -- the root is marked from the start, and marks outside `C` are visited
      have hmem : root ∈ seen := search_marks hrun root (Finset.mem_insert_self ..)
      rcases (h.marked root).mp hmem with hC | hl | hl
      · exact absurd hC hroot
      · exact hl
      · exact absurd hl List.not_mem_nil
    | tail _ hstep ih =>
      rcases (h.marked _).mp (h.expanded _ ih _ hstep.1) with hC | hl | hl
      · exact absurd hC hstep.2
      · exact hl
      · exact absurd hl List.not_mem_nil
  refine ⟨by simpa using h.nodup, fun y => ⟨fun hy => h.reached y (by simpa using hy), hclosed y⟩,
    fun y hy => h.fresh y (by simpa using hy), ?_⟩
  ext y
  rw [h.marked, Finset.mem_union, List.mem_toFinset]
  simp

/-! ### Fuel -/

/-- Inside a set `K` closed under successors, one unit of fuel per unmarked node
and per stack entry is enough. -/
theorem search_terminates {K : Finset α} (hK : ∀ x ∈ K, ∀ y ∈ next x, y ∈ K) {n : Nat}
    {seen : Finset α} {stack : List α} (hstack : ∀ y ∈ stack, y ∈ K)
    (hn : (K \ seen).card + stack.length ≤ n) : ∃ r, search next n seen stack = some r := by
  induction n generalizing seen stack with
  | zero =>
    cases stack with
    | nil => exact ⟨_, rfl⟩
    | cons x stack => simp at hn
  | succ n ih =>
    cases stack with
    | nil => exact ⟨_, rfl⟩
    | cons x stack =>
      have hx := hstack x (List.mem_cons_self ..)
      have hm : (K \ (push seen stack (next x)).1).card + (push seen stack (next x)).2.length =
          (K \ seen).card + stack.length := push_measure (hK x hx)
      have hin : ∀ y ∈ (push seen stack (next x)).2, y ∈ K := by
        intro y hy
        rcases mem_push_stack.mp hy with hy | ⟨hy, -⟩
        · exact hstack y (List.mem_cons_of_mem _ hy)
        · exact hK x hx y hy
      obtain ⟨r, hr⟩ := ih hin (by rw [hm]; simp only [List.length_cons] at hn; omega)
      exact ⟨(x :: r.1, r.2), by simp only [search, hr, Option.map_some]⟩

theorem search_succ {n : Nat} {seen : Finset α} {stack : List α} {r : List α × Finset α}
    (h : search next n seen stack = some r) : search next (n + 1) seen stack = some r := by
  induction n generalizing seen stack r with
  | zero =>
    cases stack with
    | nil => exact h
    | cons x stack => simp [search] at h
  | succ n ih =>
    cases stack with
    | nil => exact h
    | cons x stack =>
      simp only [search, Option.map_eq_some_iff] at h
      obtain ⟨r', h', rfl⟩ := h
      rw [search, ih h']
      rfl

theorem search_mono {n m : Nat} (hnm : n ≤ m) {seen : Finset α} {stack : List α}
    {r : List α × Finset α} (h : search next n seen stack = some r) :
    search next m seen stack = some r := by
  induction m, hnm using Nat.le_induction with
  | base => exact h
  | succ m _ ih => exact search_succ ih

/-- Two fuels that both suffice give the same visit. -/
theorem search_unique {n m : Nat} {seen : Finset α} {stack : List α} {r r' : List α × Finset α}
    (h : search next n seen stack = some r) (h' : search next m seen stack = some r') : r = r' := by
  have := search_mono (Nat.le_max_left n m) h
  rw [search_mono (Nat.le_max_right n m) h'] at this
  exact (Option.some.inj this).symm

/-- Only the successors of a closed set of nodes that holds the stack matter. -/
theorem search_congr {next' : α → List α} {P : α → Prop} (hP : ∀ x, P x → next x = next' x)
    (hclosed : ∀ x, P x → ∀ y ∈ next x, P y) {n : Nat} {seen : Finset α} {stack : List α}
    (hstack : ∀ y ∈ stack, P y) : search next n seen stack = search next' n seen stack := by
  induction n generalizing seen stack with
  | zero => cases stack <;> rfl
  | succ n ih =>
    cases stack with
    | nil => rfl
    | cons x stack =>
      have hx := hstack x (List.mem_cons_self ..)
      simp only [search, ← hP x hx]
      rw [ih]
      intro y hy
      rcases mem_push_stack.mp hy with hy | ⟨hy, -⟩
      · exact hstack y (List.mem_cons_of_mem _ hy)
      · exact hclosed x hx y hy

end Search

section Sweep
variable {α : Type u} [LinearOrder α] (next : α → List α) (stop : α → Bool)

/-- While the greatest node is not stopped at, replace it by its successors. -/
def sweep : Nat → OrdSet α → Option (OrdSet α)
  | 0, _ => none
  | n + 1, s =>
    match OrdSet.last? s with
    | none => some s
    | some x => if stop x then some s else sweep n (OrdSet.addAll (OrdMap.erase s x) (next x))

/-- An edge the sweep may follow. -/
def Follows (a b : α) : Prop := stop a = false ∧ b ∈ next a

variable {next stop}

/-- Expanding a node keeps what is reached from it inside the stopping set. -/
theorem reach_expand {s : OrdSet α} {x y : α} (hx : x ∈ OrdSet.toList s) (hstop : stop x = false)
    (hy : stop y = true) :
    (∃ z ∈ OrdSet.toList (OrdSet.addAll (OrdMap.erase s x) (next x)),
        Relation.ReflTransGen (Follows next stop) z y) ↔
      ∃ z ∈ OrdSet.toList s, Relation.ReflTransGen (Follows next stop) z y := by
  simp only [OrdSet.mem_toList_addAll, OrdSet.mem_toList_erase]
  constructor
  · rintro ⟨z, hz | ⟨-, hz⟩, hpath⟩
    · exact ⟨x, hx, hpath.head ⟨hstop, hz⟩⟩
    · exact ⟨z, hz, hpath⟩
  · rintro ⟨z, hz, hpath⟩
    by_cases hzx : z = x
    · subst hzx
      rcases Relation.ReflTransGen.cases_head hpath with rfl | ⟨w, hw, hpath'⟩
      · rw [hstop] at hy
        cases hy
      · exact ⟨w, .inl hw.2, hpath'⟩
    · exact ⟨z, .inr ⟨hzx, hz⟩, hpath⟩

/-- **The sweep** leaves exactly the stopping nodes reached along edges out of
nodes it does not stop at. -/
theorem sweep_spec (hdown : ∀ x y, y ≤ x → stop x = true → stop y = true) {n : Nat}
    {s s' : OrdSet α} (hrun : sweep next stop n s = some s') (y : α) :
    y ∈ OrdSet.toList s' ↔
      stop y = true ∧ ∃ x ∈ OrdSet.toList s, Relation.ReflTransGen (Follows next stop) x y := by
  induction n generalizing s with
  | zero => cases hrun
  | succ n ih =>
    -- once every element stops, the paths out of them are empty
    have hdone : (∀ x ∈ OrdSet.toList s, stop x = true) → (y ∈ OrdSet.toList s ↔
        stop y = true ∧ ∃ x ∈ OrdSet.toList s, Relation.ReflTransGen (Follows next stop) x y) := by
      intro hall
      constructor
      · exact fun hy => ⟨hall y hy, y, hy, .refl⟩
      · rintro ⟨-, x, hx, hpath⟩
        rcases Relation.ReflTransGen.cases_head hpath with rfl | ⟨w, hw, -⟩
        · exact hx
        · have hx' := hall x hx
          rw [hw.1] at hx'
          cases hx'
    rw [sweep] at hrun
    split at hrun
    · rename_i hlast
      obtain rfl := Option.some.inj hrun
      rw [OrdSet.last?_eq_none] at hlast
      exact hdone (by simp [hlast])
    · rename_i x hlast
      split_ifs at hrun with hstop
      · obtain rfl := Option.some.inj hrun
        exact hdone fun z hz => hdown x z (OrdSet.le_last? hlast hz) hstop
      · rw [ih hrun]
        have hx := OrdSet.last?_mem hlast
        by_cases hy : stop y = true
        · rw [reach_expand hx (by simpa using hstop) hy]
        · simp [hy]

/-- With successors below their node, a closed set `K` bounds the fuel: each of
its nodes is expanded at most once. -/
theorem sweep_terminates {K : Finset α} (hlt : ∀ x, ∀ y ∈ next x, y < x)
    (hK : ∀ x, ∀ y ∈ next x, y ∈ K) {n : Nat} {s : OrdSet α} (hs : ∀ y ∈ OrdSet.toList s, y ∈ K)
    (hn : K.card < n) : ∃ s', sweep next stop n s = some s' := by
  suffices ∀ (m : Nat) (J : Finset α) (s : OrdSet α), (∀ y ∈ OrdSet.toList s, y ∈ J) → J ⊆ K →
      (∀ y ∈ K, (∃ x ∈ J, y ≤ x) → y ∈ J) → J.card < m → ∃ s', sweep next stop m s = some s' by
    exact this n K s hs (Finset.Subset.refl K) (fun y hy _ => hy) hn
  intro m
  induction m with
  | zero => intro J s _ _ _ h; exact absurd h (Nat.not_lt_zero _)
  | succ m ih =>
    intro J s hsJ hJK hJ hcard
    rw [sweep]
    split
    · exact ⟨_, rfl⟩
    · rename_i x hlast
      split_ifs with hstop
      · exact ⟨_, rfl⟩
      · -- everything left is below the popped node
        have hx := hsJ x (OrdSet.last?_mem hlast)
        have hsub : J.filter (· < x) ⊂ J :=
          Finset.filter_ssubset.mpr ⟨x, hx, lt_irrefl x⟩
        refine ih (J.filter (· < x)) _ ?_ ((Finset.filter_subset _ _).trans hJK) ?_
          (by have := Finset.card_lt_card hsub; omega)
        · intro y hy
          rw [OrdSet.mem_toList_addAll, OrdSet.mem_toList_erase] at hy
          rw [Finset.mem_filter]
          rcases hy with hy | ⟨hne, hy⟩
          · exact ⟨hJ y (hK x y hy) ⟨x, hx, (hlt x y hy).le⟩, hlt x y hy⟩
          · exact ⟨hsJ y hy, lt_of_le_of_ne (OrdSet.le_last? hlast hy) hne⟩
        · rintro y hy ⟨z, hz, hyz⟩
          rw [Finset.mem_filter] at hz ⊢
          exact ⟨hJ y hy ⟨z, hz.1, hyz⟩, lt_of_le_of_lt hyz hz.2⟩

end Sweep

end DualOptimistic.Data
