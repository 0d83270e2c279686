import DualOptimistic.Consensus.BlockManager

/-! The books of the block manager (`consensus/src/block_manager.rs`) over whole runs.

The suspended blocks, the index from a missing ancestor to those that wait for it, and
the set of missing blocks should tell one story (`Consistent`). They do for as long as no
block that was registered as missing arrives: `try_accept_blocks` does not take it off
the missing ones, as the committed path does, and the committed path does not take it off
the lists of those that wait for it. Blocks have to be by members of the committee besides: the
threshold clock panics over a stranger's stake. What a call keeps to is `Meets`; along runs whose
calls do, every call returns and the books stay consistent (`calls_consistent`). -/
namespace DualOptimistic.Consensus
open Data

namespace BlockManager

/-! ### Calls -/

inductive Call where
  | tryAcceptBlocks (blocks : List VerifiedBlock)
  | tryAcceptCommittedBlocks (blocks : List VerifiedBlock)
  | tryFindBlocks (refs : List BlockRef)

/-- The manager after `accepted` have gone into the DAG, unless the threshold clock has asked the
committee for the stake of a stranger. -/
def afterAccepting (m : BlockManager) (accepted : List VerifiedBlock) (after : BlockManager) :
    Except Panic BlockManager :=
  match m.dagState.stranger? accepted with
  | some author => .error (.notInCommittee author)
  | none => .ok after

def call (m : BlockManager) : Call → Except Panic BlockManager
  | .tryAcceptBlocks blocks =>
    let o := m.tryAcceptBlocks blocks
    m.afterAccepting o.accepted o.manager
  | .tryAcceptCommittedBlocks blocks => do
    let (accepted, after) ← m.tryAcceptCommittedBlocks blocks
    m.afterAccepting accepted after
  | .tryFindBlocks refs => .ok (m.tryFindBlocks refs).2

def calls (m : BlockManager) : List Call → Except Panic BlockManager
  | [] => .ok m
  | c :: rest => do
    let m ← m.call c
    m.calls rest

/-! ### Consistent books -/

structure Consistent (m : BlockManager) : Prop where
  /-- No block is both suspended and stored. -/
  apart : ∀ k s, m.suspendedBlocks.get? k = some s → m.dagState.containsBlock k = false
  /-- What is missing is neither stored nor suspended. -/
  absent : ∀ r ∈ OrdSet.toList m.missingBlocks,
    m.dagState.containsBlock r = false ∧ m.suspendedBlocks.get? r = none
  /-- A suspended block waits for something, and only for ancestors that are not stored. -/
  waits : ∀ k s, m.suspendedBlocks.get? k = some s → OrdSet.toList s.missingAncestors ≠ [] ∧
    ∀ a ∈ OrdSet.toList s.missingAncestors, a ∈ s.block.ancestors ∧ m.dagState.containsBlock a = false
  /-- The index lists exactly who waits for what. -/
  indexed : ∀ a k, Indexed m.missingAncestors a k ↔
    ∃ s, m.suspendedBlocks.get? k = some s ∧ a ∈ OrdSet.toList s.missingAncestors

/-! ### The index -/

theorem indexed_modify_erase {index : OrdMap BlockRef (OrdSet BlockRef)} {x b a k : BlockRef} :
    Indexed (index.modify x fun refs => OrdMap.erase refs b) a k ↔ Indexed index a k ∧ ¬ (k = b ∧ a = x) := by
  unfold Indexed
  rw [OrdMap.get?_modify]
  by_cases hax : a = x
  · subst hax
    cases index.get? a with
    | none => simp
    | some refs => simp [and_comm]
  · simp [hax]

theorem indexed_forget {block : BlockRef} {missing : List BlockRef}
    {index : OrdMap BlockRef (OrdSet BlockRef)} {a k : BlockRef} :
    Indexed (missing.foldl (fun index a => index.modify a fun refs => OrdMap.erase refs block) index) a k ↔
      Indexed index a k ∧ ¬ (k = block ∧ a ∈ missing) := by
  induction missing generalizing index with
  | nil => simp
  | cons x rest ih =>
    rw [List.foldl_cons, ih, indexed_modify_erase, List.mem_cons]
    tauto

/-- Asking for references adds nobody who waits. -/
theorem indexed_find {refs : List BlockRef} {index : OrdMap BlockRef (OrdSet BlockRef)} {a k : BlockRef} :
    Indexed (refs.foldl (fun index r => index.upsert r ∅ id) index) a k ↔ Indexed index a k := by
  induction refs generalizing index with
  | nil => rfl
  | cons x rest ih =>
    rw [List.foldl_cons, ih]
    unfold Indexed
    rw [OrdMap.get?_upsert]
    by_cases hax : a = x
    · subst hax
      cases index.get? a with
      | none => simp
      | some refs => simp
    · simp [hax]

/-! ### What every call keeps -/

/-- The books up to one point: an ancestor that is waited for may have been stored. -/
structure Kept (m : BlockManager) : Prop extends m.Registered where
  apart : ∀ k s, m.suspendedBlocks.get? k = some s → m.dagState.containsBlock k = false
  absent : ∀ r ∈ OrdSet.toList m.missingBlocks,
    m.dagState.containsBlock r = false ∧ m.suspendedBlocks.get? r = none
  only : ∀ a k, Indexed m.missingAncestors a k →
    ∃ s, m.suspendedBlocks.get? k = some s ∧ a ∈ OrdSet.toList s.missingAncestors
  /-- What is waited for is registered as missing until it is stored. -/
  asked : ∀ k s, m.suspendedBlocks.get? k = some s → ∀ a ∈ OrdSet.toList s.missingAncestors,
    m.dagState.containsBlock a = true ∨ a ∈ OrdSet.toList m.missingBlocks

/-- No suspended block waits for a stored one. -/
def Fresh (m : BlockManager) : Prop :=
  ∀ k s, m.suspendedBlocks.get? k = some s → ∀ a ∈ OrdSet.toList s.missingAncestors,
    m.dagState.containsBlock a = false

/-- Every suspended block is by a member of the committee. -/
def Members (m : BlockManager) : Prop := m.SuspendedAll fun b => b.author < m.dagState.committee.size

theorem members_new (dag : DagState) : (new dag).Members := by intro k s h; cases h

theorem afterAccepting_eq_ok {m after : BlockManager} {accepted : List VerifiedBlock}
    (h : ∀ b ∈ accepted, b.author < m.dagState.committee.size) : m.afterAccepting accepted after = .ok after := by
  rw [afterAccepting, DagState.stranger?_eq_none h]

theorem call_tryAcceptBlocks {m : BlockManager} {blocks : List VerifiedBlock}
    (h : ∀ b ∈ (m.tryAcceptBlocks blocks).accepted, b.author < m.dagState.committee.size) :
    m.call (.tryAcceptBlocks blocks) = .ok (m.tryAcceptBlocks blocks).manager :=
  afterAccepting_eq_ok h

theorem kept_new (dag : DagState) : (new dag).Kept where
  toRegistered := registered_new dag
  apart := by intro k s h; cases h
  absent := by intro r h; cases h
  only := by rintro a k ⟨refs, h, -⟩; cases h
  asked := by intro k s h; cases h

theorem fresh_new (dag : DagState) : (new dag).Fresh := by intro k s h; cases h

theorem Kept.consistent {m : BlockManager} (h : m.Kept) (hfresh : m.Fresh) : m.Consistent where
  apart := h.apart
  absent := h.absent
  waits k s hs := ⟨h.waits k s hs, fun a ha => ⟨(h.ancestor k s hs a ha).1, hfresh k s hs a ha⟩⟩
  indexed a k := ⟨h.only a k, fun ⟨s, hs, ha⟩ => h.indexed k s hs a ha⟩

/-! ### One delivered block -/

/-- The block is stored already, or it is not registered as missing, also not by itself,
and lists everything that a suspended block of its reference waits for. -/
def Unasked (m : BlockManager) (b : VerifiedBlock) : Prop :=
  m.dagState.containsBlock b.reference = true ∨
    (b.reference ∉ OrdSet.toList m.missingBlocks ∧ b.reference ∉ OrdSet.toList (m.missing b) ∧
      ∀ s, m.suspendedBlocks.get? b.reference = some s → ∀ a ∈ OrdSet.toList s.missingAncestors, a ∈ b.ancestors)

section
variable {m : BlockManager} {b : VerifiedBlock}

/-- What is waited for is not suspended. -/
theorem Kept.awaited_absent (h : m.Kept) (hfresh : m.Fresh) {k a : BlockRef} {s : SuspendedBlock}
    (hs : m.suspendedBlocks.get? k = some s) (ha : a ∈ OrdSet.toList s.missingAncestors) :
    a ∈ OrdSet.toList m.missingBlocks ∧ m.suspendedBlocks.contains a = false := by
  have hmissing : a ∈ OrdSet.toList m.missingBlocks := by
    apply (h.asked k s hs a ha).resolve_left
    rw [hfresh k s hs a ha]
    exact Bool.false_ne_true
  refine ⟨hmissing, ?_⟩
  rw [OrdMap.contains, (h.absent a hmissing).2]
  rfl

/-- A suspended block that is delivered again still lacks what it waits for. -/
theorem Kept.missing_of_suspended (h : m.Kept) (hfresh : m.Fresh) {s : SuspendedBlock}
    (hs : m.suspendedBlocks.get? b.reference = some s)
    (hlists : ∀ a ∈ OrdSet.toList s.missingAncestors, a ∈ b.ancestors) {a : BlockRef}
    (ha : a ∈ OrdSet.toList s.missingAncestors) : a ∈ OrdSet.toList (m.missing b) :=
  mem_missing.mpr ⟨hlists a ha, (h.ancestor _ s hs a ha).2, hfresh _ s hs a ha,
    (h.awaited_absent hfresh hs ha).2⟩

theorem Kept.suspend (h : m.Kept) (hfresh : m.Fresh) (hnew : m.dagState.containsBlock b.reference = false)
    (hunasked : m.Unasked b) (hmiss : OrdSet.toList (m.missing b) ≠ []) :
    (m.suspend b (m.missing b)).Kept ∧ (m.suspend b (m.missing b)).Fresh := by
  obtain ⟨hmissing, hself, hlists⟩ := hunasked.resolve_left (by simp [hnew])
  have hget : ∀ k, (m.suspend b (m.missing b)).suspendedBlocks.get? k =
      if k = b.reference then some ⟨b, m.missing b⟩ else m.suspendedBlocks.get? k :=
    fun k => OrdMap.get?_insert ..
  have hmem : ∀ r, r ∈ OrdSet.toList (m.suspend b (m.missing b)).missingBlocks ↔
      r ∈ OrdSet.toList (m.missing b) ∨ r ∈ OrdSet.toList m.missingBlocks :=
    fun r => OrdSet.mem_toList_addAll
  refine ⟨⟨h.toRegistered.suspend hmiss, ?_, ?_, ?_, ?_⟩, ?_⟩
  · intro k s hs
    rw [hget] at hs
    split_ifs at hs with hk
    · exact hk ▸ hnew
    · exact h.apart k s hs
  · intro r hr
    rw [hget]
    cases (hmem r).mp hr with
    | inl hr =>
      obtain ⟨-, -, hstored, hsuspended⟩ := mem_missing.mp hr
      have hne : r ≠ b.reference := fun heq => hself (heq ▸ hr)
      rw [if_neg hne]
      exact ⟨hstored, Option.isNone_iff_eq_none.mp (Option.isSome_eq_false_iff.mp hsuspended)⟩
    | inr hr =>
      have hne : r ≠ b.reference := fun heq => hmissing (heq ▸ hr)
      rw [if_neg hne]
      exact h.absent r hr
  · intro a k hindexed
    rw [hget]
    cases indexed_suspend.mp hindexed with
    | inl hold =>
      obtain ⟨s, hs, ha⟩ := h.only a k hold
      split_ifs with hk
      · subst hk
        exact ⟨_, rfl, h.missing_of_suspended hfresh hs (hlists s hs) ha⟩
      · exact ⟨s, hs, ha⟩
    | inr hnow => exact ⟨_, if_pos hnow.1, hnow.2⟩
  · intro k s hs a ha
    rw [hget] at hs
    rw [hmem]
    split_ifs at hs
    · rw [← Option.some.inj hs] at ha
      exact Or.inr (Or.inl ha)
    · exact (h.asked k s hs a ha).imp_right Or.inr
  · intro k s hs a ha
    rw [hget] at hs
    split_ifs at hs
    · rw [← Option.some.inj hs] at ha
      exact (mem_missing.mp ha).2.2.1
    · exact hfresh k s hs a ha

/-- Nobody waits for a block that is not registered as missing. -/
theorem Kept.not_awaited (h : m.Kept) (hfresh : m.Fresh) {r : BlockRef}
    (hr : r ∉ OrdSet.toList m.missingBlocks) {k : BlockRef} {s : SuspendedBlock}
    (hs : m.suspendedBlocks.get? k = some s) : r ∉ OrdSet.toList s.missingAncestors :=
  fun hmem => hr (h.awaited_absent hfresh hs hmem).1

theorem storeWithChildren_missingBlocks (m : BlockManager) (b : VerifiedBlock) :
    (m.storeWithChildren b).manager.missingBlocks = m.missingBlocks := by
  show (m.tryUnsuspendChildrenBlocks b.reference).2.missingBlocks = _
  unfold tryUnsuspendChildrenBlocks
  split
  · rfl
  · rfl

/-- Storing a block that nobody waits for leaves the suspended ones alone. -/
theorem Kept.get?_store (h : m.Kept) (hfresh : m.Fresh) (hmissing : b.reference ∉ OrdSet.toList m.missingBlocks)
    (k : BlockRef) : (m.storeWithChildren b).manager.suspendedBlocks.get? k = m.suspendedBlocks.get? k := by
  rw [get?_storeWithChildren h.toRegistered]
  cases hs : m.suspendedBlocks.get? k with
  | none => rfl
  | some s => exact h.without_of_not_mem hs (h.not_awaited hfresh hmissing hs)

/-- It is stored by itself. -/
theorem Kept.containsBlock_store (h : m.Kept) (hfresh : m.Fresh)
    (hmissing : b.reference ∉ OrdSet.toList m.missingBlocks) (r : BlockRef) :
    (m.storeWithChildren b).manager.dagState.containsBlock r = true ↔
      r = b.reference ∨ m.dagState.containsBlock r = true := by
  rw [storeWithChildren_dagState, DagState.containsBlock_acceptBlocks,
    mem_accepted_storeWithChildren h.toRegistered]
  refine or_congr_left (or_iff_left ?_)
  rintro ⟨s, hs, hnone⟩
  rw [h.without_of_not_mem hs (h.not_awaited hfresh hmissing hs)] at hnone
  cases hnone

/-- A suspended block lacks something, so one that lacks nothing is not suspended. -/
theorem Kept.not_suspended (h : m.Kept) (hfresh : m.Fresh) (hmiss : OrdSet.toList (m.missing b) = [])
    (hlists : ∀ s, m.suspendedBlocks.get? b.reference = some s →
      ∀ a ∈ OrdSet.toList s.missingAncestors, a ∈ b.ancestors) :
    m.suspendedBlocks.get? b.reference = none := by
  cases hs : m.suspendedBlocks.get? b.reference with
  | none => rfl
  | some s =>
    obtain ⟨a, ha⟩ := List.exists_mem_of_ne_nil _ (h.waits _ s hs)
    have hlack := h.missing_of_suspended hfresh hs (hlists s hs) ha
    rw [hmiss] at hlack
    cases hlack

theorem Kept.storeWithChildren (h : m.Kept) (hfresh : m.Fresh)
    (hnew : m.dagState.containsBlock b.reference = false) (hunasked : m.Unasked b)
    (hmiss : OrdSet.toList (m.missing b) = []) :
    (m.storeWithChildren b).manager.Kept ∧ (m.storeWithChildren b).manager.Fresh := by
  obtain ⟨hmissing, -, hlists⟩ := hunasked.resolve_left (by simp [hnew])
  have hget := h.get?_store hfresh hmissing
  have hstored := h.containsBlock_store hfresh hmissing
  have habsent : ∀ r, r ≠ b.reference → m.dagState.containsBlock r = false →
      (m.storeWithChildren b).manager.dagState.containsBlock r = false := by
    intro r hne hr
    apply Bool.eq_false_of_not_eq_true
    rw [hstored, not_or]
    exact ⟨hne, by simp [hr]⟩
  have hregistered : (m.storeWithChildren b).manager.Registered := by
    obtain ⟨hkeyed, hwaits, hanc, hidx⟩ := h.toRegistered.unsuspend b.reference
    exact ⟨hkeyed, hwaits, hanc, hidx⟩
  refine ⟨⟨hregistered, ?_, ?_, ?_, ?_⟩, ?_⟩
  · intro k s hs
    rw [hget] at hs
    refine habsent k ?_ (h.apart k s hs)
    rintro rfl
    rw [h.not_suspended hfresh hmiss hlists] at hs
    cases hs
  · intro r hr
    rw [storeWithChildren_missingBlocks] at hr
    rw [hget]
    exact ⟨habsent r (fun heq => hmissing (heq ▸ hr)) (h.absent r hr).1, (h.absent r hr).2⟩
  · rintro a k ⟨refs, hrefs, hk⟩
    have hrefs' : (m.missingAncestors.erase b.reference).get? a = some refs := by
      rw [← unsuspend_missingAncestors]
      exact hrefs
    rw [OrdMap.get?_erase] at hrefs'
    split_ifs at hrefs'
    rw [hget]
    exact h.only a k ⟨refs, hrefs', hk⟩
  · intro k s hs a ha
    rw [hget] at hs
    rw [hstored, storeWithChildren_missingBlocks]
    exact (h.asked k s hs a ha).imp_left Or.inr
  · intro k s hs a ha
    rw [hget] at hs
    refine habsent a ?_ (hfresh k s hs a ha)
    rintro rfl
    exact h.not_awaited hfresh hmissing hs ha

/-- One delivered block that was not asked for keeps the books. -/
theorem Kept.acceptOne (h : m.Kept) (hfresh : m.Fresh) (hunasked : m.Unasked b) :
    (m.acceptOne b).manager.Kept ∧ (m.acceptOne b).manager.Fresh := by
  rcases m.acceptOne_cases b with ⟨-, hstep⟩ | ⟨hnew, hmiss, hstep⟩ | ⟨hnew, hmiss, hstep⟩
  · rw [hstep]
    exact ⟨h, hfresh⟩
  · rw [hstep]
    exact h.suspend hfresh hnew hunasked hmiss
  · rw [hstep]
    exact h.storeWithChildren hfresh hnew hunasked hmiss

/-- **One delivered block** leaves consistent books exactly when it was not asked for. -/
theorem Kept.acceptOne_consistent_iff (h : m.Kept) (hfresh : m.Fresh) :
    (m.acceptOne b).manager.Consistent ↔ m.Unasked b := by
  refine ⟨fun hafter => ?_, fun hunasked => ?_⟩
  · rcases m.acceptOne_cases b with ⟨hstored, -⟩ | ⟨hnew, hmiss, hstep⟩ | ⟨hnew, hmiss, hstep⟩
    · exact Or.inl hstored
    · rw [hstep] at hafter
      have hget : (m.suspend b (m.missing b)).suspendedBlocks.get? b.reference = some ⟨b, m.missing b⟩ := by
        rw [BlockManager.suspend, OrdMap.get?_insert, if_pos rfl]
      have hout : b.reference ∉ OrdSet.toList (m.suspend b (m.missing b)).missingBlocks := by
        intro hmem
        have hnone := (hafter.absent _ hmem).2
        rw [hget] at hnone
        cases hnone
      refine Or.inr ⟨fun hmem => hout (OrdSet.mem_toList_addAll.mpr (Or.inr hmem)),
        fun hmem => hout (OrdSet.mem_toList_addAll.mpr (Or.inl hmem)), fun s hs a ha => ?_⟩
      obtain ⟨s', hs', ha'⟩ := (hafter.indexed a b.reference).mp
        (indexed_suspend.mpr (Or.inl (h.indexed _ s hs a ha)))
      rw [hget] at hs'
      rw [← Option.some.inj hs'] at ha'
      exact (mem_missing.mp ha').1
    · rw [hstep] at hafter
      have hstored : (m.storeWithChildren b).manager.dagState.containsBlock b.reference = true := by
        rw [storeWithChildren_dagState, DagState.containsBlock_acceptBlocks,
          mem_accepted_storeWithChildren h.toRegistered]
        exact Or.inl (Or.inl rfl)
      refine Or.inr ⟨fun hmem => ?_, fun hmem => ?_, fun s hs => ?_⟩
      · rw [← storeWithChildren_missingBlocks m b] at hmem
        have habsent := (hafter.absent _ hmem).1
        rw [hstored] at habsent
        cases habsent
      · rw [hmiss] at hmem
        cases hmem
      · -- It does not wait for itself, so it would be suspended and stored.
        have hself : b.reference ∉ OrdSet.toList s.missingAncestors := by
          intro hmem
          have hnone := (h.absent _ (h.awaited_absent hfresh hs hmem).1).2
          rw [hs] at hnone
          cases hnone
        have hapart := hafter.apart b.reference s (by
          rw [get?_storeWithChildren h.toRegistered, hs]
          exact h.without_of_not_mem hs hself)
        rw [hstored] at hapart
        cases hapart
  · obtain ⟨hkept, hfresh'⟩ := h.acceptOne hfresh hunasked
    exact hkept.consistent hfresh'

end

/-! ### The committed path -/

/-- Every suspended block that waits for one of the committed blocks is among them. -/
def Settles (m : BlockManager) (blocks : List VerifiedBlock) : Prop :=
  ∀ b ∈ blocks, ∀ k s, m.suspendedBlocks.get? k = some s → b.reference ∈ OrdSet.toList s.missingAncestors →
    k ∈ blocks.map VerifiedBlock.reference

section
variable {m : BlockManager} {b : VerifiedBlock}

/-- After a committed block was stored: it has left the suspended and the missing ones, and
the index. -/
structure Forgot (m : BlockManager) (b : VerifiedBlock) (m' : BlockManager) : Prop where
  suspended : ∀ k, m'.suspendedBlocks.get? k = if k = b.reference then none else m.suspendedBlocks.get? k
  stored : ∀ r, m'.dagState.containsBlock r = true ↔ r = b.reference ∨ m.dagState.containsBlock r = true
  missing : ∀ r, r ∈ OrdSet.toList m'.missingBlocks ↔ r ≠ b.reference ∧ r ∈ OrdSet.toList m.missingBlocks
  index : ∀ a k, Indexed m'.missingAncestors a k ↔ Indexed m.missingAncestors a k ∧ k ≠ b.reference

/-- A block that is stored is in none of the books. -/
theorem Kept.forgot_of_stored (h : m.Kept) (hstored : m.dagState.containsBlock b.reference = true) :
    m.Forgot b m := by
  have hopen : m.suspendedBlocks.get? b.reference = none := by
    cases hs : m.suspendedBlocks.get? b.reference with
    | none => rfl
    | some s =>
      have hapart := h.apart _ s hs
      rw [hstored] at hapart
      cases hapart
  refine ⟨fun k => ?_, fun r => ?_, fun r => ?_, fun a k => ?_⟩
  · split_ifs with hk
    · rw [hk, hopen]
    · rfl
  · constructor
    · exact Or.inr
    · rintro (rfl | hr)
      · exact hstored
      · exact hr
  · refine ⟨fun hr => ⟨?_, hr⟩, fun hr => hr.2⟩
    rintro rfl
    have habsent := (h.absent _ hr).1
    rw [hstored] at habsent
    cases habsent
  · refine ⟨fun hidx => ⟨hidx, ?_⟩, fun hidx => hidx.1⟩
    rintro rfl
    obtain ⟨s, hs, -⟩ := h.only a _ hidx
    rw [hopen] at hs
    cases hs

theorem Kept.forgot_of_new (h : m.Kept) (hnew : ¬ m.dagState.containsBlock b.reference = true) :
    m.Forgot b (m.tryAcceptOneCommittedBlock b).2 := by
  rw [tryAcceptOneCommittedBlock, if_neg hnew]
  refine ⟨fun k => OrdMap.get?_erase .., fun r => ?_, fun r => OrdSet.mem_toList_erase, fun a k => ?_⟩
  · show (m.dagState.acceptBlocks [b]).containsBlock r = true ↔ _
    rw [DagState.containsBlock_acceptBlocks]
    simp
  · cases hs : m.suspendedBlocks.get? b.reference with
    | none =>
      refine ⟨fun hidx => ⟨hidx, ?_⟩, fun hidx => hidx.1⟩
      rintro rfl
      obtain ⟨s, hs', -⟩ := h.only a _ hidx
      rw [hs] at hs'
      cases hs'
    | some s =>
      -- The index lists the block under exactly what it waits for.
      dsimp only
      rw [indexed_forget]
      refine and_congr_right fun hidx => not_congr ⟨fun hk => hk.1, ?_⟩
      rintro rfl
      obtain ⟨s', hs', ha⟩ := h.only a _ hidx
      rw [hs] at hs'
      exact ⟨rfl, Option.some.inj hs' ▸ ha⟩

theorem Kept.forgot {m' : BlockManager} (h : m.Kept) (hf : m.Forgot b m') : m'.Kept := by
  have hback : ∀ k s, m'.suspendedBlocks.get? k = some s →
      k ≠ b.reference ∧ m.suspendedBlocks.get? k = some s := by
    intro k s hs
    rw [hf.suspended] at hs
    split_ifs at hs with hk
    exact ⟨hk, hs⟩
  have habsent : ∀ r, r ≠ b.reference → m.dagState.containsBlock r = false →
      m'.dagState.containsBlock r = false := by
    intro r hne hr
    apply Bool.eq_false_of_not_eq_true
    rw [hf.stored, not_or]
    exact ⟨hne, by simp [hr]⟩
  refine ⟨⟨?_, ?_, ?_, ?_⟩, ?_, ?_, ?_, ?_⟩
  · exact fun k s hs => h.keyed k s (hback k s hs).2
  · exact fun k s hs => h.waits k s (hback k s hs).2
  · exact fun k s hs => h.ancestor k s (hback k s hs).2
  · intro k s hs a ha
    obtain ⟨hne, hs⟩ := hback k s hs
    exact (hf.index a k).mpr ⟨h.indexed k s hs a ha, hne⟩
  · intro k s hs
    obtain ⟨hne, hs⟩ := hback k s hs
    exact habsent k hne (h.apart k s hs)
  · intro r hr
    obtain ⟨hne, hr⟩ := (hf.missing r).mp hr
    refine ⟨habsent r hne (h.absent r hr).1, ?_⟩
    rw [hf.suspended, if_neg hne]
    exact (h.absent r hr).2
  · intro a k hidx
    obtain ⟨hidx, hne⟩ := (hf.index a k).mp hidx
    rw [hf.suspended, if_neg hne]
    exact h.only a k hidx
  · intro k s hs a ha
    obtain ⟨-, hs⟩ := hback k s hs
    rw [hf.stored, hf.missing]
    by_cases hab : a = b.reference
    · exact Or.inl (Or.inl hab)
    · exact (h.asked k s hs a ha).imp Or.inr fun hr => ⟨hab, hr⟩

/-- One round of the committed loop. -/
theorem Kept.acceptCommitted_cons (h : m.Kept) (rest : List VerifiedBlock) :
    ∃ m', m.Forgot b m' ∧ m'.dagState.committee = m.dagState.committee ∧
      ∀ accepted final, m'.acceptEachCommitted rest = .ok (accepted, final) →
        ∃ accepted', m.acceptEachCommitted (b :: rest) = .ok (accepted', final) ∧ accepted' ⊆ b :: accepted := by
  by_cases hstored : m.dagState.containsBlock b.reference = true
  · refine ⟨m, h.forgot_of_stored hstored, rfl, fun accepted final hrun => ⟨accepted, ?_, List.subset_cons_self ..⟩⟩
    rw [BlockManager.acceptEachCommitted, tryAcceptOneCommittedBlock, if_pos hstored]
    exact hrun
  · refine ⟨_, h.forgot_of_new hstored, ?_, fun accepted final hrun => ⟨b :: accepted, ?_, List.Subset.refl _⟩⟩
    · rw [tryAcceptOneCommittedBlock, if_neg hstored]
      rfl
    · rw [tryAcceptOneCommittedBlock, if_neg hstored] at hrun
      rw [BlockManager.acceptEachCommitted, tryAcceptOneCommittedBlock, if_neg hstored]
      dsimp only at hrun ⊢
      rw [hrun]
      rfl

/-- The committed path finds nothing suspended among what it accepts, and what it leaves suspended
was suspended and is not among the blocks. -/
theorem Kept.acceptEachCommitted (h : m.Kept) (blocks : List VerifiedBlock) :
    ∃ accepted m', m.acceptEachCommitted blocks = .ok (accepted, m') ∧ m'.Kept ∧ accepted ⊆ blocks ∧
      m'.dagState.committee = m.dagState.committee ∧
      (∀ k s, m'.suspendedBlocks.get? k = some s ↔
        k ∉ blocks.map VerifiedBlock.reference ∧ m.suspendedBlocks.get? k = some s) ∧
      ∀ r, m'.dagState.containsBlock r = true ↔
        r ∈ blocks.map VerifiedBlock.reference ∨ m.dagState.containsBlock r = true := by
  induction blocks generalizing m with
  | nil => exact ⟨[], m, rfl, h, List.Subset.refl _, rfl, by simp, by simp⟩
  | cons b rest ih =>
    obtain ⟨m₁, hforgot, hcommittee, hstep⟩ := @Kept.acceptCommitted_cons m b h rest
    obtain ⟨accepted, m', hrun, hkept, hsub, hsame, hleft, hstored⟩ := ih (h.forgot hforgot)
    obtain ⟨accepted', hok, hsub'⟩ := hstep accepted m' hrun
    refine ⟨accepted', m', hok, hkept, List.Subset.trans hsub' (List.cons_subset_cons _ hsub), hsame.trans hcommittee,
      fun k s => ?_, fun r => ?_⟩
    · rw [hleft, hforgot.suspended, List.map_cons, List.mem_cons, not_or]
      by_cases hk : k = b.reference
      · simp [hk]
      · simp [hk]
    · rw [hstored, hforgot.stored, List.map_cons, List.mem_cons]
      tauto

/-- **Committed blocks** keep the books if all who wait for one of them are among them, and
only then. -/
theorem Kept.tryAcceptCommittedBlocks (h : m.Kept) (hfresh : m.Fresh) (blocks : List VerifiedBlock) :
    ∃ accepted m', m.tryAcceptCommittedBlocks blocks = .ok (accepted, m') ∧ m'.Kept ∧
      accepted ⊆ blocks ∧ (m.Members → m'.Members) ∧ (m'.Fresh ↔ m.Settles blocks) := by
  obtain ⟨accepted, m', hrun, hkept, hsub, hsame, hleft, hstored⟩ := h.acceptEachCommitted (sortByRound blocks)
  have hperm : ∀ r, r ∈ (sortByRound blocks).map VerifiedBlock.reference ↔ r ∈ blocks.map VerifiedBlock.reference :=
    fun r => ((List.perm_insertionSort _ blocks).map _).mem_iff
  refine ⟨accepted, m', hrun, hkept, fun b hb => (List.mem_insertionSort _).mp (hsub hb), fun hmembers k s hs => ?_,
    fun hfresh' b hb k s hs ha => ?_, fun hsettles k s hs a ha => ?_⟩
  · rw [hsame]
    exact hmembers k s ((hleft k s).mp hs).2
  · by_contra hk
    have hwaits := hfresh' k s ((hleft k s).mpr ⟨fun hmem => hk ((hperm k).mp hmem), hs⟩) _ ha
    have hpresent := (hstored b.reference).mpr (Or.inl ((hperm _).mpr (List.mem_map_of_mem hb)))
    rw [hwaits] at hpresent
    cases hpresent
  · obtain ⟨hk, hs⟩ := (hleft k s).mp hs
    apply Bool.eq_false_of_not_eq_true
    intro hr
    cases (hstored a).mp hr with
    | inl hr =>
      obtain ⟨b, hb, rfl⟩ := List.mem_map.mp ((hperm a).mp hr)
      exact hk ((hperm k).mpr (hsettles b hb k s hs ha))
    | inr hr =>
      rw [hfresh k s hs a ha] at hr
      cases hr

/-- **Asking for blocks** keeps the books. -/
theorem Kept.tryFindBlocks (h : m.Kept) (hfresh : m.Fresh) (refs : List BlockRef) :
    (m.tryFindBlocks refs).2.Kept ∧ (m.tryFindBlocks refs).2.Fresh := by
  have hmem : ∀ r, r ∈ OrdSet.toList (m.tryFindBlocks refs).2.missingBlocks →
      (m.dagState.containsBlock r = false ∧ m.suspendedBlocks.get? r = none) ∨
        r ∈ OrdSet.toList m.missingBlocks := by
    intro r hr
    refine (OrdSet.mem_toList_addAll.mp hr).imp_left fun hr => ?_
    have habsent := (List.mem_filter.mp hr).2
    simp only [Bool.and_eq_true, Bool.not_eq_true'] at habsent
    exact ⟨habsent.2.1, Option.isNone_iff_eq_none.mp (Option.isSome_eq_false_iff.mp habsent.2.2)⟩
  refine ⟨⟨⟨h.keyed, h.waits, h.ancestor, ?_⟩, h.apart, ?_, ?_, ?_⟩, hfresh⟩
  · exact fun k s hs a ha => indexed_find.mpr (h.indexed k s hs a ha)
  · exact fun r hr => (hmem r hr).elim id (h.absent r)
  · exact fun a k hidx => h.only a k (indexed_find.mp hidx)
  · exact fun k s hs a ha => (h.asked k s hs a ha).imp_right fun hr => OrdSet.mem_toList_addAll.mpr (Or.inr hr)

end

/-! ### Runs -/

/-- Every block of the list is unasked for as it is processed. -/
def UnaskedEach : BlockManager → List VerifiedBlock → Prop
  | _, [] => True
  | m, b :: rest => m.Unasked b ∧ (m.acceptOne b).manager.UnaskedEach rest

/-- What a call may bring: blocks by members of the committee, and none that is registered as
missing, unless it is known to be committed and comes with everything that waits for it. -/
def Meets (m : BlockManager) : Call → Prop
  | .tryAcceptBlocks blocks =>
    (∀ b ∈ blocks, b.author < m.dagState.committee.size) ∧ m.UnaskedEach (sortByRound blocks)
  | .tryAcceptCommittedBlocks blocks =>
    (∀ b ∈ blocks, b.author < m.dagState.committee.size) ∧ m.Settles blocks
  | .tryFindBlocks _ => True

def MeetsAll : BlockManager → List Call → Prop
  | _, [] => True
  | m, c :: rest => m.Meets c ∧ ∀ m', m.call c = .ok m' → m'.MeetsAll rest

theorem Kept.acceptEach {m : BlockManager} (h : m.Kept) (hfresh : m.Fresh) {blocks : List VerifiedBlock}
    (hunasked : m.UnaskedEach blocks) : (m.acceptEach blocks).manager.Kept ∧ (m.acceptEach blocks).manager.Fresh := by
  induction blocks generalizing m with
  | nil => exact ⟨h, hfresh⟩
  | cons b rest ih =>
    obtain ⟨hkept, hfresh'⟩ := h.acceptOne hfresh hunasked.1
    exact ih hkept hfresh' hunasked.2

theorem Members.tryAcceptBlocks {m : BlockManager} (h : m.Members) (hr : m.Registered) {blocks : List VerifiedBlock}
    (hblocks : ∀ b ∈ blocks, b.author < m.dagState.committee.size) :
    (∀ b ∈ (m.tryAcceptBlocks blocks).accepted, b.author < m.dagState.committee.size) ∧
      (m.tryAcceptBlocks blocks).manager.Members := by
  obtain ⟨haccepted, hsuspended⟩ := SuspendedAll.tryAcceptBlocks h hr hblocks
  refine ⟨haccepted, ?_⟩
  rw [Members, tryAcceptBlocks_dagState, DagState.acceptBlocks_committee]
  exact hsuspended

theorem Kept.call {m : BlockManager} (h : m.Kept) (hfresh : m.Fresh) (hmembers : m.Members) {c : Call}
    (hmeets : m.Meets c) : ∃ m', m.call c = .ok m' ∧ m'.Kept ∧ m'.Fresh ∧ m'.Members := by
  cases c with
  | tryAcceptBlocks blocks =>
    obtain ⟨hblocks, hunasked⟩ := hmeets
    obtain ⟨hkept, hfresh'⟩ := h.acceptEach hfresh hunasked
    obtain ⟨haccepted, hmembers'⟩ := hmembers.tryAcceptBlocks h.toRegistered hblocks
    exact ⟨_, call_tryAcceptBlocks haccepted, hkept, hfresh', hmembers'⟩
  | tryAcceptCommittedBlocks blocks =>
    obtain ⟨hblocks, hsettles⟩ := hmeets
    obtain ⟨accepted, m', hrun, hkept, hsub, hmembers', hfresh'⟩ := h.tryAcceptCommittedBlocks hfresh blocks
    refine ⟨m', ?_, hkept, hfresh'.mpr hsettles, hmembers' hmembers⟩
    show (m.tryAcceptCommittedBlocks blocks >>= _) = _
    rw [hrun]
    exact afterAccepting_eq_ok fun b hb => hblocks b (hsub hb)
  | tryFindBlocks refs =>
    obtain ⟨hkept, hfresh'⟩ := h.tryFindBlocks hfresh refs
    exact ⟨_, rfl, hkept, hfresh', hmembers⟩

theorem Kept.calls {m : BlockManager} (h : m.Kept) (hfresh : m.Fresh) (hmembers : m.Members) {cs : List Call}
    (hmeets : m.MeetsAll cs) {done : List Call} (hdone : done <+: cs) :
    ∃ m', m.calls done = .ok m' ∧ m'.Consistent := by
  induction cs generalizing m done with
  | nil =>
    rw [List.prefix_nil.mp hdone]
    exact ⟨m, rfl, h.consistent hfresh⟩
  | cons c rest ih =>
    cases done with
    | nil => exact ⟨m, rfl, h.consistent hfresh⟩
    | cons c' done =>
      obtain ⟨rfl, hrest⟩ := List.cons_prefix_cons.mp hdone
      obtain ⟨m₁, hcall, hkept, hfresh', hmembers'⟩ := h.call hfresh hmembers hmeets.1
      obtain ⟨m', hcalls, hconsistent⟩ := ih hkept hfresh' hmembers' (hmeets.2 m₁ hcall) hrest
      refine ⟨m', ?_, hconsistent⟩
      rw [BlockManager.calls, hcall]
      exact hcalls

/-- **The books stay consistent** along every run from a fresh manager in which all blocks are by
members of the committee and none arrives that is registered as missing, except as committed
together with everything that waits for it: every call returns, and after each of them the four
structures agree. -/
theorem calls_consistent (dag : DagState) (cs : List Call) (hmeets : (new dag).MeetsAll cs) :
    ∀ done, done <+: cs → ∃ m, (new dag).calls done = .ok m ∧ m.Consistent :=
  fun _ hdone => (kept_new dag).calls (fresh_new dag) (members_new dag) hmeets hdone

/-- The second link of a chain waits for the first, and both are then committed. -/
theorem calls_consistent_links :
    let m := new (DagState.new (fun _ => 0) .single)
    let cs : List Call := [.tryAcceptBlocks [link 1], .tryAcceptCommittedBlocks [link 0, link 1]]
    m.MeetsAll cs ∧ ∃ m', m.calls cs = .ok m' ∧ m'.Consistent := by
  intro m cs
  have hmeets : m.MeetsAll cs := by
    have hfirst : m.call (.tryAcceptBlocks [link 1]) = .ok (m.tryAcceptBlocks [link 1]).manager :=
      call_tryAcceptBlocks (by decide +kernel)
    refine ⟨⟨by decide +kernel, Or.inr ⟨by decide +kernel, by decide +kernel, fun s hs => (by cases hs)⟩, trivial⟩,
      fun m₁ hm₁ => ?_⟩
    obtain rfl := Except.ok.inj (hfirst.symm.trans hm₁)
    refine ⟨⟨by decide +kernel, fun b _ k s hs _ => ?_⟩, fun _ _ => trivial⟩
    have hentries : ((m.tryAcceptBlocks [link 1]).manager.suspendedBlocks.entries.map Prod.fst) =
        [(link 1).reference] := by decide +kernel
    have hk : k ∈ (m.tryAcceptBlocks [link 1]).manager.suspendedBlocks.entries.map Prod.fst :=
      List.mem_map_of_mem (OrdMap.get?_eq_some_iff.mp hs)
    rw [hentries, List.mem_singleton] at hk
    simp [hk]
  exact ⟨hmeets, calls_consistent _ cs hmeets cs (List.prefix_refl _)⟩

/-- The second link of a chain arrives, then the first, which the manager then holds and
still lists as missing. -/
theorem asked_block_stays_missing :
    let m := new (DagState.new (fun _ => 0) .single)
    ∃ m', m.calls [.tryAcceptBlocks [link 1], .tryAcceptBlocks [link 0]] = .ok m' ∧
      m'.dagState.containsBlock (link 0).reference = true ∧
      (link 0).reference ∈ OrdSet.toList m'.missingBlocks ∧ ¬ m'.Consistent := by
  intro m
  have hstored : ((m.tryAcceptBlocks [link 1]).manager.tryAcceptBlocks [link 0]).manager.dagState.containsBlock
      (link 0).reference = true := by decide +kernel
  have hmissing : (link 0).reference ∈ OrdSet.toList
      ((m.tryAcceptBlocks [link 1]).manager.tryAcceptBlocks [link 0]).manager.missingBlocks := by decide +kernel
  have hfirst : m.call (.tryAcceptBlocks [link 1]) = .ok (m.tryAcceptBlocks [link 1]).manager :=
    call_tryAcceptBlocks (by decide +kernel)
  have hsecond : (m.tryAcceptBlocks [link 1]).manager.call (.tryAcceptBlocks [link 0]) =
      .ok ((m.tryAcceptBlocks [link 1]).manager.tryAcceptBlocks [link 0]).manager :=
    call_tryAcceptBlocks (by decide +kernel)
  refine ⟨_, ?_, hstored, hmissing, fun hconsistent => ?_⟩
  · rw [calls, hfirst]
    show (BlockManager.call _ _ >>= _) = _
    rw [hsecond]
    rfl
  have habsent := (hconsistent.absent _ hmissing).1
  rw [hstored] at habsent
  cases habsent

end BlockManager

end DualOptimistic.Consensus
