import DualOptimistic.Consensus.BlockManager

/-! Causal closure of what the block manager stores.

A block that arrives while one of its ancestors is suspended counts that ancestor
as present. In every run in which this does not happen, each block is stored after
its non-genesis ancestors (`acceptAll_causal`). -/
namespace DualOptimistic.Consensus
open Data

namespace BlockManager

/-- No ancestor of a new block is suspended without being stored. -/
def Clear (m : BlockManager) (b : VerifiedBlock) : Prop :=
  m.dagState.containsBlock b.reference = false → ∀ a ∈ b.ancestors, 0 < a.round →
    m.suspendedBlocks.contains a = true → m.dagState.containsBlock a = true

/-- Each block is clear as it is processed. -/
def ClearEach : BlockManager → List VerifiedBlock → Prop
  | _, [] => True
  | m, b :: rest => m.Clear b ∧ (m.acceptOne b).manager.ClearEach rest

/-- The same along a sequence of calls. -/
def ClearCalls : BlockManager → List (List VerifiedBlock) → Prop
  | _, [] => True
  | m, batch :: rest => m.ClearEach (sortByRound batch) ∧ (m.tryAcceptBlocks batch).manager.ClearCalls rest

instance (m : BlockManager) (b : VerifiedBlock) : Decidable (m.Clear b) :=
  inferInstanceAs (Decidable (_ → ∀ a ∈ _, _ → _ → _))

instance decidableClearEach : (m : BlockManager) → (l : List VerifiedBlock) → Decidable (m.ClearEach l)
  | _, [] => inferInstanceAs (Decidable True)
  | m, b :: rest =>
    have := decidableClearEach (m.acceptOne b).manager rest
    inferInstanceAs (Decidable (_ ∧ _))

instance decidableClearCalls :
    (m : BlockManager) → (batches : List (List VerifiedBlock)) → Decidable (m.ClearCalls batches)
  | _, [] => inferInstanceAs (Decidable True)
  | m, batch :: rest =>
    have := decidableClearCalls (m.tryAcceptBlocks batch).manager rest
    inferInstanceAs (Decidable (_ ∧ _))

/-- What a suspended block does not wait for is stored. -/
def Covered (m : BlockManager) : Prop :=
  ∀ k s, m.suspendedBlocks.get? k = some s → ∀ a ∈ s.block.ancestors, 0 < a.round →
    m.dagState.containsBlock a = true ∨ a ∈ OrdSet.toList s.missingAncestors

theorem covered_new (dag : DagState) : (new dag).Covered := by
  intro k s h
  cases h

/-- Without suspended ancestors, what a new block lacks is what is not stored. -/
theorem stored_or_missing {m : BlockManager} {b : VerifiedBlock} (hclear : m.Clear b)
    (hnew : m.dagState.containsBlock b.reference = false) {a : BlockRef} (ha : a ∈ b.ancestors)
    (hpos : 0 < a.round) :
    m.dagState.containsBlock a = true ∨ a ∈ OrdSet.toList (m.missing b) := by
  cases hstored : m.dagState.containsBlock a with
  | true => exact .inl rfl
  | false =>
    have hsusp : m.suspendedBlocks.contains a = false := by
      apply Bool.eq_false_of_not_eq_true
      intro h
      rw [hclear hnew a ha hpos h] at hstored
      cases hstored
    exact .inr (mem_missing.mpr ⟨ha, hpos, hstored, hsusp⟩)

theorem Covered.suspend {m : BlockManager} (h : m.Covered) {b : VerifiedBlock} (hclear : m.Clear b)
    (hnew : m.dagState.containsBlock b.reference = false) : (m.suspend b (m.missing b)).Covered := by
  intro k s hs a ha hpos
  rw [BlockManager.suspend, OrdMap.get?_insert] at hs
  split_ifs at hs
  · rw [← Option.some.inj hs] at ha ⊢
    exact stored_or_missing hclear hnew ha hpos
  · exact h k s hs a ha hpos

/-- The children that wake with `b` find their ancestors stored once `b` is. -/
theorem Covered.causal_wake {m : BlockManager} (h : m.Covered) (hr : m.Registered) {b : VerifiedBlock}
    (hb : m.dagState.HasAncestors b) :
    m.dagState.CausalOrder (b :: (m.tryUnsuspendChildrenBlocks b.reference).1) := by
  refine ⟨hb, DagState.CausalOrder.of_hasAncestors fun x hx a ha hpos => ?_⟩
  obtain ⟨s, hs, hnone, hblock⟩ := (mem_unsuspended hr).mp hx
  rw [DagState.containsBlock_acceptBlock, Bool.or_eq_true, decide_eq_true_iff]
  rcases h _ s hs a (hblock ▸ ha) hpos with hstored | hwaits
  · exact .inr hstored
  · exact .inl (SuspendedBlock.without_eq_none.mp hnone a hwaits)

/-- One clear delivery inserts in causal order and keeps the suspended blocks covered. -/
theorem Covered.acceptOne {m : BlockManager} (h : m.Covered) (hr : m.Registered) {b : VerifiedBlock}
    (hclear : m.Clear b) :
    m.dagState.CausalOrder (m.acceptOne b).accepted ∧ (m.acceptOne b).manager.Covered := by
  rcases m.acceptOne_cases b with ⟨-, hstep⟩ | ⟨hnew, -, hstep⟩ | ⟨hnew, hmiss, hstep⟩
  · rw [hstep]
    exact ⟨trivial, h⟩
  · rw [hstep]
    exact ⟨trivial, h.suspend hclear hnew⟩
  · rw [hstep]
    have hb : m.dagState.HasAncestors b := by
      intro a ha hpos
      refine (stored_or_missing hclear hnew ha hpos).resolve_right ?_
      rw [hmiss]
      exact List.not_mem_nil
    refine ⟨h.causal_wake hr hb, ?_⟩
    intro k s' hs' a ha hpos
    rw [get?_storeWithChildren hr] at hs'
    obtain ⟨s, hs, hwithout⟩ := Option.bind_eq_some_iff.mp hs'
    obtain ⟨hblock, -, hmem⟩ := SuspendedBlock.of_without hwithout
    rw [storeWithChildren_dagState, DagState.containsBlock_acceptBlocks, hmem]
    rcases h k s hs a (hblock ▸ ha) hpos with hstored | hwaits
    · exact .inl (.inr hstored)
    · by_cases hab : a = b.reference
      · exact .inl (.inl (hab ▸ List.mem_cons_self ..))
      · exact .inr ⟨hab, hwaits⟩

theorem Covered.acceptEach {m : BlockManager} (h : m.Covered) (hr : m.Registered)
    {l : List VerifiedBlock} (hclear : m.ClearEach l) :
    m.dagState.CausalOrder (m.acceptEach l).accepted ∧ (m.acceptEach l).manager.Covered := by
  induction l generalizing m with
  | nil => exact ⟨trivial, h⟩
  | cons b rest ih =>
    obtain ⟨hcausal, hcov⟩ := h.acceptOne hr hclear.1
    obtain ⟨hcausal', hcov'⟩ := ih hcov (hr.acceptOne b) hclear.2
    rw [acceptOne_dagState] at hcausal'
    exact ⟨hcausal.append hcausal', hcov'⟩

theorem ClearEach.append {m : BlockManager} {l r : List VerifiedBlock} (hl : m.ClearEach l)
    (hr : (m.acceptEach l).manager.ClearEach r) : m.ClearEach (l ++ r) := by
  induction l generalizing m with
  | nil => exact hr
  | cons b rest ih => exact ⟨hl.1, ih hl.2 hr⟩

theorem ClearCalls.processed {m : BlockManager} {batches : List (List VerifiedBlock)}
    (h : m.ClearCalls batches) : m.ClearEach (processed batches) := by
  induction batches generalizing m with
  | nil => trivial
  | cons batch rest ih => exact h.1.append (ih h.2)

theorem ClearCalls.of_append {m : BlockManager} {l r : List (List VerifiedBlock)}
    (h : m.ClearCalls (l ++ r)) : m.ClearCalls l := by
  induction l generalizing m with
  | nil => trivial
  | cons batch rest ih => exact ⟨h.1, ih h.2⟩

/-- **Causal closure.** In a run of calls on a fresh manager whose blocks are all
clear as they are processed, after every call: the blocks accepted so far were
inserted each after its non-genesis ancestors, nothing else was inserted, and the
store is closed under non-genesis ancestors. -/
theorem acceptAll_causal (sha3 : List UInt8 → BlockDigest) (c : Committee)
    (batches : List (List VerifiedBlock))
    (hclear : (new (DagState.new sha3 c)).ClearCalls batches) :
    ∀ done, done <+: batches →
      let run := (new (DagState.new sha3 c)).acceptAll done
      (DagState.new sha3 c).CausalOrder run.1 ∧
        run.2.dagState = (DagState.new sha3 c).acceptBlocks run.1 ∧ run.2.dagState.Closed := by
  intro done hdone
  obtain ⟨later, rfl⟩ := hdone
  obtain ⟨hcausal, -⟩ :=
    (covered_new (DagState.new sha3 c)).acceptEach (registered_new _) hclear.of_append.processed
  have hdag := (new (DagState.new sha3 c)).acceptEach_dagState (processed done)
  show (DagState.new sha3 c).CausalOrder _ ∧ _
  rw [acceptAll_eq]
  refine ⟨hcausal, hdag, ?_⟩
  rw [hdag]
  exact (DagState.closed_new sha3 c).acceptBlocks hcausal

/-- The middle link of a chain arrives first, waits, and wakes with the first. -/
theorem acceptAll_causal_links :
    let fresh := DagState.new (fun _ => 0) (Committee.equal 0)
    let run := (new fresh).acceptAll [[link 1], [link 0], [link 2]]
    (new fresh).ClearCalls [[link 1], [link 0], [link 2]] ∧
      run.1 = [link 0, link 1, link 2] ∧ fresh.CausalOrder run.1 ∧
      run.2.dagState = fresh.acceptBlocks run.1 ∧ run.2.dagState.Closed := by
  have hclear : (new (DagState.new (fun _ => 0) (Committee.equal 0))).ClearCalls
      [[link 1], [link 0], [link 2]] := by decide +kernel
  exact ⟨hclear, by decide +kernel, acceptAll_causal _ _ _ hclear _ (List.prefix_refl _)⟩

/-- The second and third link of a chain whose first never arrives: the second is
suspended, the third counts it as present and is stored without it. -/
theorem suspended_ancestor_not_stored :
    let fresh := DagState.new (fun _ => 0) (Committee.equal 0)
    let run := (new fresh).acceptAll [[link 1], [link 2]]
    run.1 = [link 2] ∧ ¬ fresh.CausalOrder run.1 ∧ ¬ run.2.dagState.Closed := by
  refine ⟨by decide +kernel, by decide +kernel, ?_⟩
  intro h
  have hstored := h (link 2).reference (link 2) (by decide +kernel) (link 1).reference
    (by decide +kernel) (by decide)
  exact absurd hstored (by decide +kernel)

/-! ### Causal delivery -/

/-- Nothing is suspended. -/
def Idle (m : BlockManager) : Prop := ∀ k, m.suspendedBlocks.get? k = none

theorem Idle.acceptOne {m : BlockManager} (h : m.Idle) (hr : m.Registered) {b : VerifiedBlock}
    (hb : m.dagState.HasAncestors b) :
    m.dagState.CausalOrder (m.acceptOne b).accepted ∧ (m.acceptOne b).manager.Idle ∧
      ∀ r, (m.dagState.acceptBlock b).containsBlock r = (m.acceptOne b).manager.dagState.containsBlock r := by
  rcases m.acceptOne_cases b with ⟨hstored, hstep⟩ | ⟨-, hmiss, -⟩ | ⟨-, -, hstep⟩
  · rw [hstep]
    refine ⟨trivial, h, fun r => ?_⟩
    rw [DagState.containsBlock_acceptBlock]
    by_cases hrb : r = b.reference
    · rw [hrb, hstored, Bool.or_true]
    · rw [decide_eq_false hrb, Bool.false_or]
  · -- its ancestors are there, so it lacks nothing
    obtain ⟨a, ha⟩ := List.exists_mem_of_ne_nil _ hmiss
    obtain ⟨hanc, hpos, habsent, -⟩ := mem_missing.mp ha
    rw [hb a hanc hpos] at habsent
    cases habsent
  · have hwoken : (m.tryUnsuspendChildrenBlocks b.reference).1 = [] := by
      rw [List.eq_nil_iff_forall_not_mem]
      intro x hx
      obtain ⟨s, hs, -⟩ := (mem_unsuspended hr).mp hx
      rw [h x.reference] at hs
      cases hs
    have haccepted : (m.storeWithChildren b).accepted = [b] := congrArg (b :: ·) hwoken
    rw [hstep]
    refine ⟨?_, fun k => ?_, fun r => ?_⟩
    · rw [haccepted]
      exact ⟨hb, trivial⟩
    · rw [get?_storeWithChildren hr, h k]
      rfl
    · rw [storeWithChildren_dagState, haccepted]
      rfl

/-- **Delivered in causal order**, no block is suspended, and those that are accepted are in
causal order. -/
theorem Idle.acceptEach {m : BlockManager} (h : m.Idle) (hr : m.Registered) {l : List VerifiedBlock}
    (hl : m.dagState.CausalOrder l) :
    m.dagState.CausalOrder (m.acceptEach l).accepted ∧ (m.acceptEach l).manager.Idle ∧
      ∀ r, (m.dagState.acceptBlocks l).containsBlock r = (m.acceptEach l).manager.dagState.containsBlock r := by
  induction l generalizing m with
  | nil => exact ⟨trivial, h, fun r => rfl⟩
  | cons b rest ih =>
    obtain ⟨hcausal, hidle, hcontains⟩ := h.acceptOne hr hl.1
    obtain ⟨hcausal', hidle', hcontains'⟩ := ih hidle (hr.acceptOne b) (hl.2.congr hcontains)
    rw [acceptOne_dagState] at hcausal'
    refine ⟨hcausal.append hcausal', hidle', fun r => ?_⟩
    show (m.dagState.acceptBlocks (b :: rest)).containsBlock r =
      ((m.acceptOne b).manager.acceptEach rest).manager.dagState.containsBlock r
    rw [← hcontains' r, Bool.eq_iff_iff, DagState.acceptBlocks_cons, DagState.containsBlock_acceptBlocks,
      DagState.containsBlock_acceptBlocks, hcontains r]

end BlockManager

end DualOptimistic.Consensus
