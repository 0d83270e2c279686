import DualOptimistic.Consensus.DagState
import Mathlib.Data.List.Sort

/-! The block manager (`consensus/src/block_manager.rs`).

A block whose ancestors are not all known waits in `suspendedBlocks` until they
arrive; three indices have to agree about it. Everything one delivery can do is
in `acceptOne_cases`, and what waking the children of a block does to the
suspended ones is `get?_unsuspend`. -/
namespace DualOptimistic.Consensus
open Data

/-- A block waiting for the ancestors it lacks. -/
structure SuspendedBlock where
  block : VerifiedBlock
  missingAncestors : OrdSet BlockRef
deriving DecidableEq

inductive TryAcceptResult where
  | accepted (block : VerifiedBlock)
  | suspended (missing : OrdSet BlockRef)
  | processed

structure BlockManager where
  dagState : DagState
  /-- Blocks waiting for missing ancestors. -/
  suspendedBlocks : OrdMap BlockRef SuspendedBlock
  /-- Missing ancestor to the suspended blocks that need it. -/
  missingAncestors : OrdMap BlockRef (OrdSet BlockRef)
  /-- The missing ancestors not yet fetched. -/
  missingBlocks : OrdSet BlockRef

namespace BlockManager

def new (dag : DagState) : BlockManager := ⟨dag, ∅, ∅, ∅⟩

/-! ### One block -/

/-- The ancestors of `block` that are neither stored nor suspended. -/
def missing (m : BlockManager) (block : VerifiedBlock) : OrdSet BlockRef :=
  OrdSet.addAll ∅ (block.ancestors.filter fun a =>
    a.round != genesisRound && !decide (a.round ≤ m.dagState.gcRound) &&
      (!m.dagState.containsBlock a && !m.suspendedBlocks.contains a))

/-- Register `block` as needing its missing ancestors. -/
def suspend (m : BlockManager) (block : VerifiedBlock) (missing : OrdSet BlockRef) : BlockManager :=
  { m with
    missingAncestors := (OrdSet.toList missing).foldl
      (fun index a => index.upsert a ∅ fun refs => OrdSet.add refs block.reference)
      m.missingAncestors
    missingBlocks := OrdSet.addAll m.missingBlocks (OrdSet.toList missing)
    suspendedBlocks := m.suspendedBlocks.insert block.reference ⟨block, missing⟩ }

def tryAcceptOneBlock (m : BlockManager) (block : VerifiedBlock) : TryAcceptResult × BlockManager :=
  if m.dagState.containsBlock block.reference then (.processed, m)
  else if OrdSet.toList (m.missing block) ≠ [] then
    (.suspended (m.missing block), m.suspend block (m.missing block))
  else (.accepted block, m)

/-- Take `newlyAccepted` off the children's lists, and out come those that wait
for nothing else. -/
def unsuspendEach (newlyAccepted : BlockRef) :
    List BlockRef → OrdMap BlockRef SuspendedBlock →
      List VerifiedBlock × OrdMap BlockRef SuspendedBlock
  | [], suspended => ([], suspended)
  | child :: rest, suspended =>
    match suspended.get? child with
    | none => unsuspendEach newlyAccepted rest suspended
    | some s =>
      let left := OrdMap.erase s.missingAncestors newlyAccepted
      if OrdSet.toList left = [] then
        let more := unsuspendEach newlyAccepted rest (suspended.erase child)
        (s.block :: more.1, more.2)
      else unsuspendEach newlyAccepted rest (suspended.insert child ⟨s.block, left⟩)

/-- Try to unsuspend blocks that were waiting for `newlyAccepted`. -/
def tryUnsuspendChildrenBlocks (m : BlockManager) (newlyAccepted : BlockRef) :
    List VerifiedBlock × BlockManager :=
  match m.missingAncestors.get? newlyAccepted with
  | none => ([], m)
  | some waiting =>
    let unsuspended := unsuspendEach newlyAccepted (OrdSet.toList waiting) m.suspendedBlocks
    (unsuspended.1,
      { m with
        missingAncestors := m.missingAncestors.erase newlyAccepted
        suspendedBlocks := unsuspended.2 })

/-- Accepted blocks, the missing ancestors to ask for, and the manager after. -/
structure Outcome where
  accepted : List VerifiedBlock
  missing : OrdSet BlockRef
  manager : BlockManager

/-- Store a block together with the children that were waiting on it. -/
def storeWithChildren (m : BlockManager) (block : VerifiedBlock) : Outcome where
  accepted := block :: (m.tryUnsuspendChildrenBlocks block.reference).1
  missing := ∅
  manager :=
    { (m.tryUnsuspendChildrenBlocks block.reference).2 with
      dagState := (m.tryUnsuspendChildrenBlocks block.reference).2.dagState.acceptBlocks
        (block :: (m.tryUnsuspendChildrenBlocks block.reference).1) }

/-- One round of the loop of `try_accept_blocks_internal`. -/
def acceptOne (m : BlockManager) (block : VerifiedBlock) : Outcome :=
  match m.tryAcceptOneBlock block with
  | (.accepted b, m) => m.storeWithChildren b
  | (.suspended missing, m) => ⟨[], missing, m⟩
  | (.processed, m) => ⟨[], ∅, m⟩

def acceptEach (m : BlockManager) : List VerifiedBlock → Outcome
  | [] => ⟨[], ∅, m⟩
  | b :: rest =>
    let first := m.acceptOne b
    let more := first.manager.acceptEach rest
    ⟨first.accepted ++ more.accepted, OrdSet.addAll first.missing (OrdSet.toList more.missing),
      more.manager⟩

/-! ### The public calls -/

/-- The stable sort by round that opens every call. -/
def sortByRound (blocks : List VerifiedBlock) : List VerifiedBlock :=
  blocks.insertionSort fun a b => a.round ≤ b.round

/-- Try to accept `blocks`. -/
def tryAcceptBlocks (m : BlockManager) (blocks : List VerifiedBlock) : Outcome :=
  m.acceptEach (sortByRound blocks)

/-- A known-committed block is stored whatever it lacks, and forgotten by the indices. -/
def tryAcceptOneCommittedBlock (m : BlockManager) (block : VerifiedBlock) :
    TryAcceptResult × BlockManager :=
  if m.dagState.containsBlock block.reference then (.processed, m)
  else
    let missingAncestors := match m.suspendedBlocks.get? block.reference with
      | none => m.missingAncestors
      | some s => (OrdSet.toList s.missingAncestors).foldl
          (fun index a => index.modify a fun refs => OrdMap.erase refs block.reference)
          m.missingAncestors
    (.accepted block,
      { dagState := m.dagState.acceptBlocks [block]
        suspendedBlocks := m.suspendedBlocks.erase block.reference
        missingAncestors := missingAncestors
        missingBlocks := OrdMap.erase m.missingBlocks block.reference })

def acceptEachCommitted (m : BlockManager) :
    List VerifiedBlock → Except Panic (List VerifiedBlock × BlockManager)
  | [] => .ok ([], m)
  | b :: rest =>
    match m.tryAcceptOneCommittedBlock b with
    | (.accepted b, m) => do
      let more ← m.acceptEachCommitted rest
      pure (b :: more.1, more.2)
    | (.processed, m) => m.acceptEachCommitted rest
    | (.suspended _, _) => .error (.committedSuspended b.reference)

/-- Accept blocks that are known to be committed. Nothing is reported missing on
this path, so the closing assertion of the source holds of itself. -/
def tryAcceptCommittedBlocks (m : BlockManager) (blocks : List VerifiedBlock) :
    Except Panic (List VerifiedBlock × BlockManager) :=
  m.acceptEachCommitted (sortByRound blocks)

/-- Which of the references are neither stored nor suspended; they are asked for. -/
def tryFindBlocks (m : BlockManager) (refs : List BlockRef) : OrdSet BlockRef × BlockManager :=
  let absent := refs.filter fun r =>
    decide (m.dagState.gcRound < r.round) &&
      (!m.dagState.containsBlock r && !m.suspendedBlocks.contains r)
  (OrdSet.addAll ∅ absent,
    { m with
      missingBlocks := OrdSet.addAll m.missingBlocks absent
      missingAncestors := absent.foldl (fun index r => index.upsert r ∅ id) m.missingAncestors })

/-- A sequence of `try_accept_blocks` calls: everything they return as accepted,
in order, and the manager after the last. -/
def acceptAll (m : BlockManager) : List (List VerifiedBlock) → List VerifiedBlock × BlockManager
  | [] => ([], m)
  | batch :: rest =>
    let o := m.tryAcceptBlocks batch
    let more := o.manager.acceptAll rest
    (o.accepted ++ more.1, more.2)

/-- The order in which a sequence of calls processes its blocks. -/
def processed (batches : List (List VerifiedBlock)) : List VerifiedBlock :=
  batches.flatMap sortByRound

theorem acceptEach_append (m : BlockManager) (l r : List VerifiedBlock) :
    (m.acceptEach (l ++ r)).accepted =
        (m.acceptEach l).accepted ++ ((m.acceptEach l).manager.acceptEach r).accepted ∧
      (m.acceptEach (l ++ r)).manager = ((m.acceptEach l).manager.acceptEach r).manager := by
  induction l generalizing m with
  | nil => exact ⟨rfl, rfl⟩
  | cons b rest ih =>
    obtain ⟨hacc, hman⟩ := ih (m.acceptOne b).manager
    refine ⟨?_, hman⟩
    show (m.acceptOne b).accepted ++ ((m.acceptOne b).manager.acceptEach (rest ++ r)).accepted = _
    rw [hacc, ← List.append_assoc]
    rfl

/-- Batches only sort: a sequence of calls processes one list of blocks. -/
theorem acceptAll_eq (m : BlockManager) (batches : List (List VerifiedBlock)) :
    m.acceptAll batches =
      ((m.acceptEach (processed batches)).accepted, (m.acceptEach (processed batches)).manager) := by
  induction batches generalizing m with
  | nil => rfl
  | cons batch rest ih =>
    obtain ⟨hacc, hman⟩ := m.acceptEach_append (sortByRound batch) (processed rest)
    show (_ ++ ((m.tryAcceptBlocks batch).manager.acceptAll rest).1, _) = _
    rw [ih]
    exact Prod.ext hacc.symm hman.symm

/-! ### What one delivery can do -/

theorem mem_missing {m : BlockManager} {b : VerifiedBlock} {a : BlockRef} :
    a ∈ OrdSet.toList (m.missing b) ↔ a ∈ b.ancestors ∧ 0 < a.round ∧
      m.dagState.containsBlock a = false ∧ m.suspendedBlocks.contains a = false := by
  simp only [missing, OrdSet.mem_toList_addAll, OrdSet.mem_toList_empty, or_false, List.mem_filter,
    genesisRound, DagState.gcRound, Bool.and_eq_true, bne_iff_ne, Bool.not_eq_true',
    decide_eq_false_iff_not, Nat.pos_iff_ne_zero, Nat.le_zero, ne_eq]
  tauto

theorem acceptOne_cases (m : BlockManager) (b : VerifiedBlock) :
    (m.dagState.containsBlock b.reference = true ∧ m.acceptOne b = ⟨[], ∅, m⟩) ∨
    (m.dagState.containsBlock b.reference = false ∧ OrdSet.toList (m.missing b) ≠ [] ∧
      m.acceptOne b = ⟨[], m.missing b, m.suspend b (m.missing b)⟩) ∨
    (m.dagState.containsBlock b.reference = false ∧ OrdSet.toList (m.missing b) = [] ∧
      m.acceptOne b = m.storeWithChildren b) := by
  by_cases hstored : m.dagState.containsBlock b.reference = true
  · exact .inl ⟨hstored, by simp only [acceptOne, tryAcceptOneBlock, hstored, if_true]⟩
  · have hfresh : m.dagState.containsBlock b.reference = false := Bool.eq_false_of_not_eq_true hstored
    by_cases hmiss : OrdSet.toList (m.missing b) = []
    · refine .inr (.inr ⟨hfresh, hmiss, ?_⟩)
      simp only [acceptOne, tryAcceptOneBlock, if_neg hstored, hmiss, ne_eq, not_true_eq_false, if_false]
    · refine .inr (.inl ⟨hfresh, hmiss, ?_⟩)
      simp only [acceptOne, tryAcceptOneBlock, if_neg hstored, ne_eq, hmiss, not_false_eq_true, if_true]

end BlockManager

/-- What is left of a suspended block once `r` has arrived: nothing if it waited for
nothing else. -/
def SuspendedBlock.without (s : SuspendedBlock) (r : BlockRef) : Option SuspendedBlock :=
  if OrdSet.toList (OrdMap.erase s.missingAncestors r) = [] then none
  else some ⟨s.block, OrdMap.erase s.missingAncestors r⟩

/-- What is left waiting after `r` has arrived waited before, for the same but `r`. -/
theorem SuspendedBlock.of_without {s s' : SuspendedBlock} {r : BlockRef}
    (h : s.without r = some s') : s'.block = s.block ∧
      OrdSet.toList s'.missingAncestors ≠ [] ∧
      ∀ a, a ∈ OrdSet.toList s'.missingAncestors ↔ a ≠ r ∧ a ∈ OrdSet.toList s.missingAncestors := by
  rw [SuspendedBlock.without] at h
  split_ifs at h with hleft
  rw [← Option.some.inj h]
  exact ⟨rfl, hleft, fun a => OrdSet.mem_toList_erase⟩

theorem SuspendedBlock.without_eq_none {s : SuspendedBlock} {r : BlockRef} :
    s.without r = none ↔ ∀ a ∈ OrdSet.toList s.missingAncestors, a = r := by
  rw [SuspendedBlock.without]
  constructor
  · intro h a ha
    split_ifs at h with hleft
    by_contra hne
    have hmem : a ∈ OrdSet.toList (OrdMap.erase s.missingAncestors r) :=
      OrdSet.mem_toList_erase.mpr ⟨hne, ha⟩
    rw [hleft] at hmem
    cases hmem
  · intro h
    rw [if_pos]
    refine List.eq_nil_iff_forall_not_mem.mpr fun a ha => ?_
    obtain ⟨hne, ha⟩ := OrdSet.mem_toList_erase.mp ha
    exact hne (h a ha)

namespace BlockManager

theorem get?_unsuspendEach {r : BlockRef} {children : List BlockRef} (hn : children.Nodup)
    (suspended : OrdMap BlockRef SuspendedBlock) (k : BlockRef) :
    (unsuspendEach r children suspended).2.get? k =
      if k ∈ children then (suspended.get? k).bind (·.without r) else suspended.get? k := by
  induction children generalizing suspended with
  | nil => rfl
  | cons child rest ih =>
    obtain ⟨hnotin, hn⟩ := List.nodup_cons.mp hn
    cases hget : suspended.get? child with
    | none =>
      simp only [unsuspendEach, hget, ih hn, List.mem_cons]
      by_cases hk : k = child
      · subst hk
        simp [hnotin, hget]
      · simp [hk]
    | some s =>
      by_cases hleft : OrdSet.toList (OrdMap.erase s.missingAncestors r) = []
      · simp only [unsuspendEach, hget, hleft, if_true, ih hn, List.mem_cons]
        by_cases hk : k = child
        · subst hk
          simp [hnotin, hget, SuspendedBlock.without, hleft]
        · simp [hk]
      · simp only [unsuspendEach, hget, hleft, if_false, ih hn, List.mem_cons]
        by_cases hk : k = child
        · subst hk
          simp [hnotin, hget, SuspendedBlock.without, hleft]
        · simp [hk]

theorem unsuspendEach_fst {r : BlockRef} {children : List BlockRef} (hn : children.Nodup)
    (suspended : OrdMap BlockRef SuspendedBlock) :
    (unsuspendEach r children suspended).1 = children.filterMap fun k =>
      (suspended.get? k).bind fun s => if s.without r = none then some s.block else none := by
  induction children generalizing suspended with
  | nil => rfl
  | cons child rest ih =>
    obtain ⟨hnotin, hn⟩ := List.nodup_cons.mp hn
    have hrest : ∀ other : OrdMap BlockRef SuspendedBlock,
        (∀ k, k ≠ child → other.get? k = suspended.get? k) →
        (rest.filterMap fun k => (other.get? k).bind fun s =>
          if s.without r = none then some s.block else none) =
        rest.filterMap fun k => (suspended.get? k).bind fun s =>
          if s.without r = none then some s.block else none := by
      intro other hother
      refine List.filterMap_congr fun k hk => ?_
      rw [hother k fun h => hnotin (h ▸ hk)]
    cases hget : suspended.get? child with
    | none =>
      simp only [unsuspendEach, hget, ih hn, List.filterMap_cons, Option.bind_none]
    | some s =>
      by_cases hleft : OrdSet.toList (OrdMap.erase s.missingAncestors r) = []
      · simp only [unsuspendEach, hget, hleft, if_true, ih hn, List.filterMap_cons, Option.bind_some,
          SuspendedBlock.without]
        congr 1
        exact hrest _ fun k hk => by simp [hk]
      · simp only [unsuspendEach, hget, hleft, if_false, ih hn, List.filterMap_cons, Option.bind_some,
          SuspendedBlock.without, reduceCtorEq]
        exact hrest _ fun k hk => by simp [hk]

/-! ### The indices agree -/

/-- Every suspended block stands under its own reference, waits for at least one of
its non-genesis ancestors, and is found from each of those it waits for. -/
structure Registered (m : BlockManager) : Prop where
  keyed : ∀ k s, m.suspendedBlocks.get? k = some s → s.block.reference = k
  waits : ∀ k s, m.suspendedBlocks.get? k = some s → OrdSet.toList s.missingAncestors ≠ []
  ancestor : ∀ k s, m.suspendedBlocks.get? k = some s → ∀ a ∈ OrdSet.toList s.missingAncestors,
    a ∈ s.block.ancestors ∧ 0 < a.round
  indexed : ∀ k s, m.suspendedBlocks.get? k = some s → ∀ a ∈ OrdSet.toList s.missingAncestors,
    ∃ refs, m.missingAncestors.get? a = some refs ∧ k ∈ OrdSet.toList refs

theorem registered_new (dag : DagState) : (new dag).Registered where
  keyed := by intro k s h; cases h
  waits := by intro k s h; cases h
  ancestor := by intro k s h; cases h
  indexed := by intro k s h; cases h

/-- The index lists `k` among those that wait for `a`. -/
def Indexed (index : OrdMap BlockRef (OrdSet BlockRef)) (a k : BlockRef) : Prop :=
  ∃ refs, index.get? a = some refs ∧ k ∈ OrdSet.toList refs

theorem indexed_upsert_add {index : OrdMap BlockRef (OrdSet BlockRef)} {x b a k : BlockRef} :
    Indexed (index.upsert x ∅ fun refs => OrdSet.add refs b) a k ↔ Indexed index a k ∨ k = b ∧ a = x := by
  unfold Indexed
  rw [OrdMap.get?_upsert]
  by_cases hax : a = x
  · subst hax
    simp only [if_true, Option.some.injEq, exists_eq_left', OrdSet.mem_toList_add, and_true]
    cases index.get? a with
    | none => simp
    | some refs => simp [or_comm]
  · simp [hax]

theorem indexed_suspend {block : BlockRef} {missing : List BlockRef}
    {index : OrdMap BlockRef (OrdSet BlockRef)} {a k : BlockRef} :
    Indexed (missing.foldl (fun index a => index.upsert a ∅ fun refs => OrdSet.add refs block) index) a k ↔
      Indexed index a k ∨ k = block ∧ a ∈ missing := by
  induction missing generalizing index with
  | nil => simp
  | cons x rest ih =>
    rw [List.foldl_cons, ih, indexed_upsert_add, List.mem_cons]
    tauto

theorem Registered.suspend {m : BlockManager} (h : m.Registered) {b : VerifiedBlock}
    (hmiss : OrdSet.toList (m.missing b) ≠ []) : (m.suspend b (m.missing b)).Registered where
  keyed := by
    intro k s hs
    rw [BlockManager.suspend, OrdMap.get?_insert] at hs
    split_ifs at hs with hk
    · rw [← Option.some.inj hs, hk]
    · exact h.keyed k s hs
  waits := by
    intro k s hs
    rw [BlockManager.suspend, OrdMap.get?_insert] at hs
    split_ifs at hs with hk
    · rw [← Option.some.inj hs]
      exact hmiss
    · exact h.waits k s hs
  ancestor := by
    intro k s hs a ha
    rw [BlockManager.suspend, OrdMap.get?_insert] at hs
    split_ifs at hs with hk
    · rw [← Option.some.inj hs] at ha ⊢
      obtain ⟨hanc, hpos, -⟩ := mem_missing.mp ha
      exact ⟨hanc, hpos⟩
    · exact h.ancestor k s hs a ha
  indexed := by
    intro k s hs a ha
    rw [BlockManager.suspend, OrdMap.get?_insert] at hs
    apply indexed_suspend.mpr
    split_ifs at hs with hk
    · rw [← Option.some.inj hs] at ha
      exact .inr ⟨hk, ha⟩
    · exact .inl (h.indexed k s hs a ha)

/-- A block that does not wait for `r` is left as it is. -/
theorem Registered.without_of_not_mem {m : BlockManager} (h : m.Registered) {k r : BlockRef}
    {s : SuspendedBlock} (hs : m.suspendedBlocks.get? k = some s)
    (hr : r ∉ OrdSet.toList s.missingAncestors) : s.without r = some s := by
  have herase : OrdMap.erase s.missingAncestors r = s.missingAncestors := by
    apply OrdMap.ext_get?
    intro a
    rw [OrdMap.get?_erase]
    split_ifs with ha
    · rw [OrdSet.mem_toList, ← ha, OrdMap.contains] at hr
      exact (Option.not_isSome_iff_eq_none.mp hr).symm
    · rfl
  rw [SuspendedBlock.without, herase, if_neg (h.waits k s hs)]

/-- Waking the children of `r` takes `r` off every list it is on. -/
theorem get?_unsuspend {m : BlockManager} (h : m.Registered) (r k : BlockRef) :
    (m.tryUnsuspendChildrenBlocks r).2.suspendedBlocks.get? k =
      (m.suspendedBlocks.get? k).bind (·.without r) := by
  have hself : ∀ s, m.suspendedBlocks.get? k = some s → r ∉ OrdSet.toList s.missingAncestors →
      m.suspendedBlocks.get? k = (m.suspendedBlocks.get? k).bind (·.without r) := by
    intro s hs hr
    rw [hs, Option.bind_some, h.without_of_not_mem hs hr]
  unfold tryUnsuspendChildrenBlocks
  cases hwait : m.missingAncestors.get? r with
  | none =>
    cases hs : m.suspendedBlocks.get? k with
    | none => rfl
    | some s =>
      have hr : r ∉ OrdSet.toList s.missingAncestors := by
        intro hr
        obtain ⟨refs, hrefs, -⟩ := h.indexed k s hs r hr
        rw [hwait] at hrefs
        cases hrefs
      rw [← hs]
      exact hself s hs hr
  | some waiting =>
    have hn : (OrdSet.toList waiting).Nodup := OrdMap.keys_nodup waiting
    show (unsuspendEach r (OrdSet.toList waiting) m.suspendedBlocks).2.get? k = _
    rw [get?_unsuspendEach hn]
    split_ifs with hk
    · rfl
    · cases hs : m.suspendedBlocks.get? k with
      | none => rfl
      | some s =>
        have hr : r ∉ OrdSet.toList s.missingAncestors := by
          intro hr
          obtain ⟨refs, hrefs, hkrefs⟩ := h.indexed k s hs r hr
          rw [hwait] at hrefs
          exact hk (Option.some.inj hrefs ▸ hkrefs)
        rw [← hs]
        exact hself s hs hr

/-- The blocks a suspended set lets go when `r` arrives, in the order of `waiting`. -/
theorem unsuspended_eq (m : BlockManager) (r : BlockRef) :
    (m.tryUnsuspendChildrenBlocks r).1 =
      (((m.missingAncestors.get? r).map OrdSet.toList).getD []).filterMap fun k =>
        (m.suspendedBlocks.get? k).bind fun s => if s.without r = none then some s.block else none := by
  unfold tryUnsuspendChildrenBlocks
  cases m.missingAncestors.get? r with
  | none => rfl
  | some waiting => exact unsuspendEach_fst (OrdMap.keys_nodup waiting) _

theorem mem_unsuspended {m : BlockManager} (h : m.Registered) {r : BlockRef} {x : VerifiedBlock} :
    x ∈ (m.tryUnsuspendChildrenBlocks r).1 ↔
      ∃ s, m.suspendedBlocks.get? x.reference = some s ∧ s.without r = none ∧ s.block = x := by
  rw [unsuspended_eq, List.mem_filterMap]
  constructor
  · intro hx
    obtain ⟨k, -, hk⟩ := hx
    obtain ⟨s, hs, hsx⟩ := Option.bind_eq_some_iff.mp hk
    split_ifs at hsx with hnone
    have hblock : s.block = x := Option.some.inj hsx
    rw [← h.keyed k s hs, hblock] at hs
    exact ⟨s, hs, hnone, hblock⟩
  · intro hx
    obtain ⟨s, hs, hnone, hblock⟩ := hx
    have hr : r ∈ OrdSet.toList s.missingAncestors := by
      by_contra hr
      rw [h.without_of_not_mem hs hr] at hnone
      cases hnone
    obtain ⟨refs, hrefs, hmem⟩ := h.indexed _ s hs r hr
    refine ⟨x.reference, ?_, ?_⟩
    · rw [hrefs]
      exact hmem
    · rw [hs, Option.bind_some, if_pos hnone, hblock]

theorem unsuspended_nodup {m : BlockManager} (h : m.Registered) (r : BlockRef) :
    ((m.tryUnsuspendChildrenBlocks r).1.map VerifiedBlock.reference).Nodup := by
  rw [unsuspended_eq, List.map_filterMap]
  refine List.Nodup.filterMap ?_ ?_
  · intro k k' x hk hk'
    have hkey : ∀ k, x ∈ ((m.suspendedBlocks.get? k).bind fun s =>
        if s.without r = none then some s.block else none).map VerifiedBlock.reference → k = x := by
      intro k hk
      obtain ⟨b, hb, hbx⟩ := Option.map_eq_some_iff.mp hk
      obtain ⟨s, hs, hsb⟩ := Option.bind_eq_some_iff.mp hb
      split_ifs at hsb
      rw [← hbx, ← Option.some.inj hsb, h.keyed k s hs]
    rw [hkey k hk, hkey k' hk']
  · cases m.missingAncestors.get? r with
    | none => exact List.nodup_nil
    | some waiting => exact OrdMap.keys_nodup waiting

theorem unsuspend_dagState (m : BlockManager) (r : BlockRef) :
    (m.tryUnsuspendChildrenBlocks r).2.dagState = m.dagState := by
  unfold tryUnsuspendChildrenBlocks
  split
  · rfl
  · rfl

theorem storeWithChildren_dagState (m : BlockManager) (b : VerifiedBlock) :
    (m.storeWithChildren b).manager.dagState =
      m.dagState.acceptBlocks (m.storeWithChildren b).accepted := by
  show (m.tryUnsuspendChildrenBlocks b.reference).2.dagState.acceptBlocks _ = _
  rw [unsuspend_dagState]
  rfl

theorem get?_storeWithChildren {m : BlockManager} (h : m.Registered) (b : VerifiedBlock) (k : BlockRef) :
    (m.storeWithChildren b).manager.suspendedBlocks.get? k =
      (m.suspendedBlocks.get? k).bind (·.without b.reference) :=
  get?_unsuspend h b.reference k

theorem unsuspend_missingAncestors (m : BlockManager) (r : BlockRef) :
    (m.tryUnsuspendChildrenBlocks r).2.missingAncestors = m.missingAncestors.erase r := by
  unfold tryUnsuspendChildrenBlocks
  split
  · rename_i hnone
    apply OrdMap.ext_get?
    intro k
    rw [OrdMap.get?_erase]
    split_ifs with hk
    · rw [hk, hnone]
    · rfl
  · rfl

theorem Registered.unsuspend {m : BlockManager} (h : m.Registered) (r : BlockRef) :
    (m.tryUnsuspendChildrenBlocks r).2.Registered := by
  have hback : ∀ k s', (m.tryUnsuspendChildrenBlocks r).2.suspendedBlocks.get? k = some s' →
      ∃ s, m.suspendedBlocks.get? k = some s ∧ s.without r = some s' := by
    intro k s' hs'
    rw [get?_unsuspend h] at hs'
    exact Option.bind_eq_some_iff.mp hs'
  constructor
  · intro k s' hs'
    obtain ⟨s, hs, hwithout⟩ := hback k s' hs'
    rw [(SuspendedBlock.of_without hwithout).1]
    exact h.keyed k s hs
  · intro k s' hs'
    obtain ⟨s, hs, hwithout⟩ := hback k s' hs'
    exact (SuspendedBlock.of_without hwithout).2.1
  · intro k s' hs' a ha
    obtain ⟨s, hs, hwithout⟩ := hback k s' hs'
    obtain ⟨hblock, -, hmem⟩ := SuspendedBlock.of_without hwithout
    rw [hblock]
    exact h.ancestor k s hs a ((hmem a).mp ha).2
  · intro k s' hs' a ha
    obtain ⟨s, hs, hwithout⟩ := hback k s' hs'
    obtain ⟨hne, ha⟩ := ((SuspendedBlock.of_without hwithout).2.2 a).mp ha
    rw [unsuspend_missingAncestors, OrdMap.get?_erase, if_neg hne]
    exact h.indexed k s hs a ha

/-- The blocks stored with `b` are `b` and those that waited for nothing else. -/
theorem mem_accepted_storeWithChildren {m : BlockManager} (h : m.Registered) {b : VerifiedBlock}
    {k : BlockRef} : k ∈ (m.storeWithChildren b).accepted.map VerifiedBlock.reference ↔
      k = b.reference ∨ ∃ s, m.suspendedBlocks.get? k = some s ∧ s.without b.reference = none := by
  show k ∈ (b :: (m.tryUnsuspendChildrenBlocks b.reference).1).map VerifiedBlock.reference ↔ _
  rw [List.map_cons, List.mem_cons, List.mem_map]
  refine or_congr_right ⟨fun hk => ?_, fun hk => ?_⟩
  · obtain ⟨x, hx, rfl⟩ := hk
    obtain ⟨s, hs, hnone, -⟩ := (mem_unsuspended h).mp hx
    exact ⟨s, hs, hnone⟩
  · obtain ⟨s, hs, hnone⟩ := hk
    have hkey : s.block.reference = k := h.keyed k s hs
    rw [← hkey] at hs
    exact ⟨s.block, (mem_unsuspended h).mpr ⟨s, hs, hnone, rfl⟩, hkey⟩

theorem contains_storeWithChildren {m : BlockManager} (h : m.Registered) {b : VerifiedBlock}
    {k : BlockRef} : (m.storeWithChildren b).manager.suspendedBlocks.contains k = true ↔
      ∃ s, m.suspendedBlocks.get? k = some s ∧ s.without b.reference ≠ none := by
  rw [OrdMap.contains, get?_storeWithChildren h]
  cases m.suspendedBlocks.get? k with
  | none => simp
  | some s => simp [Option.isSome_iff_ne_none]

theorem Registered.acceptOne {m : BlockManager} (h : m.Registered) (b : VerifiedBlock) :
    (m.acceptOne b).manager.Registered := by
  rcases m.acceptOne_cases b with ⟨-, hstep⟩ | ⟨-, hmiss, hstep⟩ | ⟨-, -, hstep⟩
  · rw [hstep]
    exact h
  · rw [hstep]
    exact h.suspend hmiss
  · rw [hstep]
    obtain ⟨hkeyed, hwaits, hanc, hidx⟩ := h.unsuspend b.reference
    exact ⟨hkeyed, hwaits, hanc, hidx⟩

theorem Registered.acceptEach {m : BlockManager} (h : m.Registered) (l : List VerifiedBlock) :
    (m.acceptEach l).manager.Registered := by
  induction l generalizing m with
  | nil => exact h
  | cons b rest ih => exact ih (h.acceptOne b)

/-! ### What goes in and out -/

/-- The accepted blocks are the ones that were stored. -/
theorem acceptOne_dagState (m : BlockManager) (b : VerifiedBlock) :
    (m.acceptOne b).manager.dagState = m.dagState.acceptBlocks (m.acceptOne b).accepted := by
  rcases m.acceptOne_cases b with ⟨-, hstep⟩ | ⟨-, -, hstep⟩ | ⟨-, -, hstep⟩
  · rw [hstep]
    rfl
  · rw [hstep]
    rfl
  · rw [hstep]
    exact m.storeWithChildren_dagState b

theorem acceptEach_dagState (m : BlockManager) (l : List VerifiedBlock) :
    (m.acceptEach l).manager.dagState = m.dagState.acceptBlocks (m.acceptEach l).accepted := by
  induction l generalizing m with
  | nil => rfl
  | cons b rest ih =>
    show ((m.acceptOne b).manager.acceptEach rest).manager.dagState =
      m.dagState.acceptBlocks ((m.acceptOne b).accepted ++ ((m.acceptOne b).manager.acceptEach rest).accepted)
    rw [ih, acceptOne_dagState, DagState.acceptBlocks_append]

theorem tryAcceptBlocks_dagState (m : BlockManager) (batch : List VerifiedBlock) :
    (m.tryAcceptBlocks batch).manager.dagState = m.dagState.acceptBlocks (m.tryAcceptBlocks batch).accepted :=
  m.acceptEach_dagState (sortByRound batch)

/-- Every suspended block satisfies `P`. -/
def SuspendedAll (P : VerifiedBlock → Prop) (m : BlockManager) : Prop :=
  ∀ k s, m.suspendedBlocks.get? k = some s → P s.block

theorem SuspendedAll.acceptOne {P : VerifiedBlock → Prop} {m : BlockManager} (h : m.SuspendedAll P)
    (hr : m.Registered) {b : VerifiedBlock} (hb : P b) :
    (∀ x ∈ (m.acceptOne b).accepted, P x) ∧ (m.acceptOne b).manager.SuspendedAll P := by
  rcases m.acceptOne_cases b with ⟨-, hstep⟩ | ⟨-, -, hstep⟩ | ⟨-, -, hstep⟩
  · rw [hstep]
    exact ⟨fun x hx => absurd hx List.not_mem_nil, h⟩
  · rw [hstep]
    refine ⟨fun x hx => absurd hx List.not_mem_nil, fun k s hs => ?_⟩
    rw [suspend, OrdMap.get?_insert] at hs
    split_ifs at hs
    · rw [← Option.some.inj hs]
      exact hb
    · exact h k s hs
  · rw [hstep]
    refine ⟨fun x hx => ?_, fun k s hs => ?_⟩
    · rcases List.mem_cons.mp hx with rfl | hx
      · exact hb
      · obtain ⟨s, hs, -, rfl⟩ := (mem_unsuspended hr).mp hx
        exact h _ s hs
    · rw [get?_storeWithChildren hr] at hs
      obtain ⟨s', hs', hwithout⟩ := Option.bind_eq_some_iff.mp hs
      rw [(SuspendedBlock.of_without hwithout).1]
      exact h k s' hs'

/-- What comes out went in, now or while it was suspended. -/
theorem SuspendedAll.acceptEach {P : VerifiedBlock → Prop} {m : BlockManager} (h : m.SuspendedAll P)
    (hr : m.Registered) {l : List VerifiedBlock} (hl : ∀ b ∈ l, P b) :
    (∀ x ∈ (m.acceptEach l).accepted, P x) ∧ (m.acceptEach l).manager.SuspendedAll P := by
  induction l generalizing m with
  | nil => exact ⟨fun x hx => absurd hx List.not_mem_nil, h⟩
  | cons b rest ih =>
    obtain ⟨hfirst, hafter⟩ := h.acceptOne hr (hl b (List.mem_cons_self ..))
    obtain ⟨hmore, hlast⟩ := ih hafter (hr.acceptOne b) fun x hx => hl x (List.mem_cons_of_mem _ hx)
    refine ⟨fun x hx => ?_, hlast⟩
    rcases List.mem_append.mp hx with hx | hx
    · exact hfirst x hx
    · exact hmore x hx

theorem SuspendedAll.tryAcceptBlocks {P : VerifiedBlock → Prop} {m : BlockManager} (h : m.SuspendedAll P)
    (hr : m.Registered) {batch : List VerifiedBlock} (hbatch : ∀ b ∈ batch, P b) :
    (∀ x ∈ (m.tryAcceptBlocks batch).accepted, P x) ∧ (m.tryAcceptBlocks batch).manager.SuspendedAll P :=
  h.acceptEach hr fun b hb => hbatch b ((List.mem_insertionSort _).mp hb)

end BlockManager

end DualOptimistic.Consensus
