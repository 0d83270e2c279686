import DualOptimistic.Consensus.Committee
import DualOptimistic.Data.Fallible
import DualOptimistic.Data.Search

/-! The in-memory DAG (`consensus/src/dag_state.rs`).

Blocks are stored under their own references. Committed references are only
remembered, never removed from the store, and the garbage-collection round is
always 0. The two traversals are `ancestorsAtRound`, a frontier expanded from its
greatest reference, and `getCausalBlocks`, a depth-first walk through uncommitted
blocks; `getCausalBlocks_eq` reads the latter as the general search. -/
namespace DualOptimistic.Consensus
open Data

/-- The panics of the commit path, and the one outcome the source does not have:
a bounded loop of this model running out of fuel. -/
inductive Panic where
  /-- `Block not found in storage` in `find_supported_block`. -/
  | blockNotFound (ref : BlockRef)
  /-- The assertion of `is_certificate`. -/
  | notInDag (ref : BlockRef)
  /-- `More than one candidate` in `try_direct_decide`. -/
  | moreThanOneCandidate (slot : Slot)
  /-- `More than one certified leader` in `decide_leader_from_anchor`. -/
  | moreThanOneCertified (slot : Slot)
  /-- `leader block was already committed` in `linearize_sub_dag`. -/
  | alreadyCommitted (ref : BlockRef)
  /-- The `expect` of `linearize_sub_dag`. -/
  | ancestorMissing (ref : BlockRef)
  /-- `attempted to be committed twice` in `linearize_sub_dag`. -/
  | committedTwice (ref : BlockRef)
  /-- `no blocks at or below gc_round` in `linearize_sub_dag`. -/
  | belowGcRound
  /-- `committed block should never be suspended` in the block manager. -/
  | committedSuspended (ref : BlockRef)
  /-- The index of `Committee::stake` when a block is accepted. -/
  | notInCommittee (author : AuthorityIndex)
  | outOfFuel
deriving DecidableEq

/-! ### Stores -/

/-- Blocks by reference, each under its own. -/
structure BlockStore where
  map : OrdMap BlockRef VerifiedBlock
  keyed : ∀ r b, map.get? r = some b → b.reference = r

namespace BlockStore

def empty : BlockStore := ⟨∅, fun _ _ h => by cases h⟩

instance : EmptyCollection BlockStore := ⟨empty⟩

def insert (s : BlockStore) (b : VerifiedBlock) : BlockStore where
  map := s.map.insert b.reference b
  keyed := by
    intro r b' h
    rw [OrdMap.get?_insert] at h
    split_ifs at h with hr
    · rw [hr, ← Option.some.inj h]
    · exact s.keyed r b' h

@[simp] theorem get?_empty (r : BlockRef) : (∅ : BlockStore).map.get? r = none := rfl

@[simp] theorem get?_insert (s : BlockStore) (b : VerifiedBlock) (r : BlockRef) :
    (s.insert b).map.get? r = if r = b.reference then some b else s.map.get? r :=
  OrdMap.get?_insert ..

end BlockStore

/-- One genesis block per authority. -/
def genesisBlocks (sha3 : List UInt8 → BlockDigest) (c : Committee) : List VerifiedBlock :=
  (List.range c.size).map fun i =>
    VerifiedBlock.newVerified sha3 { epoch := c.epoch, round := genesisRound, author := i }

theorem genesisBlocks_round {sha3 : List UInt8 → BlockDigest} {c : Committee} {b : VerifiedBlock}
    (h : b ∈ genesisBlocks sha3 c) : b.round = 0 := by
  obtain ⟨i, -, rfl⟩ := List.mem_map.mp h
  rfl

/-! ### The state -/

/-- 32-byte digest of a commit. -/
abbrev CommitDigest := BitVec 256

abbrev CommitIndex := Nat

def genesisCommitIndex : CommitIndex := 0

structure DagState where
  committee : Committee
  /-- Round-0 genesis blocks, always present. -/
  genesis : BlockStore
  /-- All accepted blocks. -/
  blocks : BlockStore
  /-- References already linearised into a sub-dag. -/
  committed : Finset BlockRef
  thresholdClock : ThresholdClock
  highestAcceptedRound : Round
  lastCommitIndex : CommitIndex
  lastCommitDigest : CommitDigest
  lastCommitTimestampMs : BlockTimestampMs
  genesis_round : ∀ r b, genesis.map.get? r = some b → r.round = 0

namespace DagState

/-- The genesis blocks collected by reference. -/
def genesisStore (sha3 : List UInt8 → BlockDigest) (c : Committee) : BlockStore :=
  (genesisBlocks sha3 c).foldl BlockStore.insert ∅

theorem mem_genesisBlocks {sha3 : List UInt8 → BlockDigest} {c : Committee} {r : BlockRef}
    {b : VerifiedBlock} (h : (genesisStore sha3 c).map.get? r = some b) :
    b ∈ genesisBlocks sha3 c := by
  have hfold : ∀ (l : List VerifiedBlock) (s : BlockStore),
      (l.foldl BlockStore.insert s).map.get? r = some b → b ∈ l ∨ s.map.get? r = some b := by
    intro l
    induction l with
    | nil => exact fun s h => .inr h
    | cons x rest ih =>
      intro s h
      rcases ih (s.insert x) h with hrest | hins
      · exact .inl (List.mem_cons_of_mem _ hrest)
      · rw [BlockStore.get?_insert] at hins
        split_ifs at hins
        · exact .inl (Option.some.inj hins ▸ List.mem_cons_self ..)
        · exact .inr hins
  exact (hfold _ ∅ h).resolve_right (by simp)

theorem genesisStore_round {sha3 : List UInt8 → BlockDigest} {c : Committee} {r : BlockRef}
    {b : VerifiedBlock} (h : (genesisStore sha3 c).map.get? r = some b) : r.round = 0 := by
  rw [← (genesisStore sha3 c).keyed r b h]
  exact genesisBlocks_round (mem_genesisBlocks h)

/-- All genesis blocks are considered committed so that the linearizer never
recurses into them. -/
def new (sha3 : List UInt8 → BlockDigest) (c : Committee) : DagState where
  committee := c
  genesis := genesisStore sha3 c
  blocks := ∅
  committed := (genesisStore sha3 c).map.keys.toFinset
  thresholdClock := ThresholdClock.new 1
  highestAcceptedRound := 0
  lastCommitIndex := genesisCommitIndex
  lastCommitDigest := 0
  lastCommitTimestampMs := 0
  genesis_round := fun _ _ h => genesisStore_round h

/-- Only genesis is committed at the start. -/
theorem new_committed {sha3 : List UInt8 → BlockDigest} {c : Committee} {r : BlockRef}
    (h : r ∈ (new sha3 c).committed) : r.round = 0 := by
  obtain ⟨b, hb⟩ := OrdMap.contains_iff.mp (OrdMap.contains_iff_mem_keys.mpr (List.mem_toFinset.mp h))
  exact genesisStore_round hb

/-- Insert one block and advance the threshold clock. -/
def acceptBlock (dag : DagState) (b : VerifiedBlock) : DagState :=
  { dag with
    thresholdClock := (dag.thresholdClock.addBlock dag.committee b.reference).2
    highestAcceptedRound :=
      if dag.highestAcceptedRound < b.round then b.round else dag.highestAcceptedRound
    blocks := dag.blocks.insert b }

def acceptBlocks (dag : DagState) (blocks : List VerifiedBlock) : DagState :=
  blocks.foldl acceptBlock dag

/-- The first author whose stake the threshold clock asks for in vain while `blocks` are accepted,
one after the other. -/
def stranger? (dag : DagState) : List VerifiedBlock → Option AuthorityIndex
  | [] => none
  | b :: rest =>
    if dag.thresholdClock.looksUp b.reference && !dag.committee.isValidIndex b.author then some b.author
    else (dag.acceptBlock b).stranger? rest

/-! ### Reads -/

def getBlock (dag : DagState) (r : BlockRef) : Option VerifiedBlock :=
  (dag.blocks.map.get? r).or (dag.genesis.map.get? r)

def containsBlock (dag : DagState) (r : BlockRef) : Bool :=
  dag.blocks.map.contains r || dag.genesis.map.contains r

def isCommitted (dag : DagState) (r : BlockRef) : Bool := r ∈ dag.committed

/-- All uncommitted blocks in a slot. -/
def getUncommittedBlocksAtSlot (dag : DagState) (slot : Slot) : List VerifiedBlock :=
  ((dag.blocks.map.range fun r =>
      BlockRef.new slot.round slot.authority BlockDigest.min ≤ r &&
        r ≤ BlockRef.new slot.round slot.authority BlockDigest.max).map Prod.snd).filter
    fun b => !dag.isCommitted b.reference

/-- All uncommitted blocks at a round. -/
def getUncommittedBlocksAtRound (dag : DagState) (round : Round) : List VerifiedBlock :=
  ((dag.blocks.map.range fun r =>
      BlockRef.new round 0 BlockDigest.min ≤ r &&
        r < BlockRef.new (round + 1) 0 BlockDigest.min).map Prod.snd).filter
    fun b => !dag.isCommitted b.reference

/-- The ancestors listed by a stored block. -/
def ancestorRefs (dag : DagState) (r : BlockRef) : List BlockRef :=
  match dag.getBlock r with
  | some b => b.ancestors
  | none => []

/-- Enough fuel for `ancestorsAtRound`: every reference any stored block lists. -/
def ancestorFuel (dag : DagState) (later : VerifiedBlock) : Nat :=
  later.ancestors.length +
    ((dag.blocks.map.values ++ dag.genesis.map.values).map fun b => b.ancestors.length).sum + 1

/-- All ancestors of `later`, transitively, that sit at `earlier`. -/
def ancestorsAtRound (dag : DagState) (later : VerifiedBlock) (earlier : Round) :
    Except Panic (List VerifiedBlock) :=
  match sweep dag.ancestorRefs (fun r => decide (r.round ≤ earlier)) (dag.ancestorFuel later)
      (OrdSet.addAll ∅ later.ancestors) with
  | none => .error .outOfFuel
  | some linked =>
    .ok (((OrdMap.range linked fun r => decide (BlockRef.new earlier 0 BlockDigest.min ≤ r)).map
      Prod.fst).filterMap dag.getBlock)

/-- Always 0: no garbage collection. -/
def gcRound (_ : DagState) : Round := 0

/-! ### What accepting a block changes -/

theorem acceptBlocks_cons (dag : DagState) (b : VerifiedBlock) (l : List VerifiedBlock) :
    dag.acceptBlocks (b :: l) = (dag.acceptBlock b).acceptBlocks l := rfl

theorem acceptBlocks_append (dag : DagState) (l m : List VerifiedBlock) :
    dag.acceptBlocks (l ++ m) = (dag.acceptBlocks l).acceptBlocks m :=
  List.foldl_append ..

@[simp] theorem acceptBlock_committee (dag : DagState) (b : VerifiedBlock) :
    (dag.acceptBlock b).committee = dag.committee := rfl

/-- Members are no strangers. -/
theorem stranger?_eq_none {dag : DagState} {blocks : List VerifiedBlock}
    (h : ∀ b ∈ blocks, b.author < dag.committee.size) : dag.stranger? blocks = none := by
  induction blocks generalizing dag with
  | nil => rfl
  | cons b rest ih =>
    have hvalid : dag.committee.isValidIndex b.author = true := decide_eq_true (h b (List.mem_cons_self ..))
    rw [stranger?, hvalid, Bool.not_true, Bool.and_false, if_neg Bool.false_ne_true]
    exact ih fun x hx => h x (List.mem_cons_of_mem _ hx)

@[simp] theorem acceptBlock_genesis (dag : DagState) (b : VerifiedBlock) :
    (dag.acceptBlock b).genesis = dag.genesis := rfl

@[simp] theorem acceptBlock_committed (dag : DagState) (b : VerifiedBlock) :
    (dag.acceptBlock b).committed = dag.committed := rfl

/-- The highest round stays a `u32`. -/
theorem highest_acceptBlock {dag : DagState} (h : dag.highestAcceptedRound < u32Size) (b : VerifiedBlock) :
    (dag.acceptBlock b).highestAcceptedRound < u32Size := by
  show (if dag.highestAcceptedRound < b.round then b.round else dag.highestAcceptedRound) < u32Size
  split_ifs
  · exact b.block.round_lt
  · exact h

@[simp] theorem getBlock_acceptBlock (dag : DagState) (b : VerifiedBlock) (r : BlockRef) :
    (dag.acceptBlock b).getBlock r = if r = b.reference then some b else dag.getBlock r := by
  show ((dag.blocks.insert b).map.get? r).or (dag.genesis.map.get? r) = _
  rw [BlockStore.get?_insert]
  split_ifs
  · rfl
  · rfl

theorem blocks_reference {dag : DagState} {r : BlockRef} {b : VerifiedBlock}
    (h : dag.blocks.map.get? r = some b) : b.reference = r :=
  dag.blocks.keyed r b h

theorem getBlock_reference {dag : DagState} {r : BlockRef} {b : VerifiedBlock}
    (h : dag.getBlock r = some b) : b.reference = r := by
  rcases Option.or_eq_some_iff.mp h with h | ⟨-, h⟩
  · exact dag.blocks.keyed r b h
  · exact dag.genesis.keyed r b h

theorem containsBlock_iff {dag : DagState} {r : BlockRef} :
    dag.containsBlock r = true ↔ ∃ b, dag.getBlock r = some b := by
  rw [← Option.isSome_iff_exists, getBlock, Option.isSome_or]
  rfl

theorem containsBlock_of_getBlock {dag : DagState} {r : BlockRef} {b : VerifiedBlock}
    (h : dag.getBlock r = some b) : dag.containsBlock r = true :=
  containsBlock_iff.mpr ⟨b, h⟩

/-- Above round 0 a block is stored exactly if it was accepted. -/
theorem containsBlock_of_round_pos {dag : DagState} {r : BlockRef} (hr : 0 < r.round) :
    dag.containsBlock r = dag.blocks.map.contains r := by
  have hgen : dag.genesis.map.contains r = false := by
    apply Bool.eq_false_of_not_eq_true
    intro h
    obtain ⟨b, hb⟩ := OrdMap.contains_iff.mp h
    exact hr.ne' (dag.genesis_round r b hb)
  rw [containsBlock, hgen, Bool.or_false]

@[simp] theorem containsBlock_acceptBlock (dag : DagState) (b : VerifiedBlock) (r : BlockRef) :
    (dag.acceptBlock b).containsBlock r = (decide (r = b.reference) || dag.containsBlock r) := by
  rw [Bool.eq_iff_iff, Bool.or_eq_true, decide_eq_true_iff, containsBlock_iff, containsBlock_iff,
    getBlock_acceptBlock]
  by_cases hr : r = b.reference
  · simp [hr]
  · simp [hr]

theorem containsBlock_acceptBlocks {dag : DagState} {l : List VerifiedBlock} {r : BlockRef} :
    (dag.acceptBlocks l).containsBlock r = true ↔
      r ∈ l.map VerifiedBlock.reference ∨ dag.containsBlock r = true := by
  induction l generalizing dag with
  | nil => simp [acceptBlocks]
  | cons b rest ih =>
    rw [acceptBlocks_cons, ih, containsBlock_acceptBlock, Bool.or_eq_true, decide_eq_true_iff,
      List.map_cons, List.mem_cons]
    tauto

@[simp] theorem acceptBlocks_genesis (dag : DagState) (l : List VerifiedBlock) :
    (dag.acceptBlocks l).genesis = dag.genesis := by
  induction l generalizing dag with
  | nil => rfl
  | cons b rest ih => exact ih (dag.acceptBlock b)

@[simp] theorem acceptBlocks_committee (dag : DagState) (l : List VerifiedBlock) :
    (dag.acceptBlocks l).committee = dag.committee := by
  induction l generalizing dag with
  | nil => rfl
  | cons b rest ih => exact ih (dag.acceptBlock b)

@[simp] theorem acceptBlocks_committed (dag : DagState) (l : List VerifiedBlock) :
    (dag.acceptBlocks l).committed = dag.committed := by
  induction l generalizing dag with
  | nil => rfl
  | cons b rest ih => exact ih (dag.acceptBlock b)

theorem blocks_acceptBlocks {dag : DagState} {l : List VerifiedBlock} {r : BlockRef}
    {x : VerifiedBlock} (hn : (l.map VerifiedBlock.reference).Nodup) :
    (dag.acceptBlocks l).blocks.map.get? r = some x ↔
      (x ∈ l ∧ x.reference = r) ∨ (r ∉ l.map VerifiedBlock.reference ∧ dag.blocks.map.get? r = some x) := by
  induction l generalizing dag with
  | nil => simp [acceptBlocks]
  | cons b rest ih =>
    rw [List.map_cons, List.nodup_cons] at hn
    have hget : (dag.acceptBlock b).blocks.map.get? r =
        if r = b.reference then some b else dag.blocks.map.get? r := BlockStore.get?_insert ..
    rw [acceptBlocks_cons, ih hn.2, hget, List.map_cons]
    by_cases hr : r = b.reference
    · subst hr
      simp only [hn.1, not_false_eq_true, if_true, Option.some.injEq, true_and, List.mem_cons,
        not_true_eq_false, false_and, or_false]
      constructor
      · rintro (⟨hx, href⟩ | rfl)
        · exact ⟨.inr hx, href⟩
        · exact ⟨.inl rfl, rfl⟩
      · rintro ⟨rfl | hx, href⟩
        · exact .inr rfl
        · exact .inl ⟨hx, href⟩
    · simp only [List.mem_cons, hr, false_or]
      refine or_congr_left ⟨fun h => ⟨.inr h.1, h.2⟩, fun h => ⟨h.1.resolve_left ?_, h.2⟩⟩
      intro hx
      exact hr (by rw [← h.2, hx])

theorem mem_of_blocks_acceptBlocks {dag : DagState} {l : List VerifiedBlock} {r : BlockRef}
    {x : VerifiedBlock} (h : (dag.acceptBlocks l).blocks.map.get? r = some x) :
    x ∈ l ∨ dag.blocks.map.get? r = some x := by
  induction l generalizing dag with
  | nil => exact .inr h
  | cons b rest ih =>
    rcases @ih (dag.acceptBlock b) h with hx | hx
    · exact .inl (List.mem_cons_of_mem _ hx)
    · rw [acceptBlock, BlockStore.get?_insert] at hx
      split_ifs at hx
      · exact .inl (Option.some.inj hx ▸ List.mem_cons_self ..)
      · exact .inr hx

theorem blocks_contains_acceptBlocks {dag : DagState} {l : List VerifiedBlock} {r : BlockRef} :
    (dag.acceptBlocks l).blocks.map.contains r = true ↔
      r ∈ l.map VerifiedBlock.reference ∨ dag.blocks.map.contains r = true := by
  induction l generalizing dag with
  | nil => simp [acceptBlocks]
  | cons b rest ih =>
    have hget : (dag.acceptBlock b).blocks.map.contains r =
        (decide (r = b.reference) || dag.blocks.map.contains r) := OrdMap.contains_insert ..
    rw [acceptBlocks_cons, ih, hget, Bool.or_eq_true, decide_eq_true_iff, List.map_cons, List.mem_cons]
    tauto

/-- Every ancestor of `b` above genesis is stored. -/
def HasAncestors (dag : DagState) (b : VerifiedBlock) : Prop :=
  ∀ a ∈ b.ancestors, 0 < a.round → dag.containsBlock a = true

/-- Inserting the blocks one after another, each finds its non-genesis ancestors stored. -/
def CausalOrder : DagState → List VerifiedBlock → Prop
  | _, [] => True
  | dag, b :: rest => dag.HasAncestors b ∧ CausalOrder (dag.acceptBlock b) rest

instance (dag : DagState) (b : VerifiedBlock) : Decidable (dag.HasAncestors b) :=
  inferInstanceAs (Decidable (∀ a ∈ _, _ → _))

instance decidableCausalOrder :
    (dag : DagState) → (l : List VerifiedBlock) → Decidable (dag.CausalOrder l)
  | _, [] => inferInstanceAs (Decidable True)
  | dag, b :: rest =>
    have := decidableCausalOrder (dag.acceptBlock b) rest
    inferInstanceAs (Decidable (_ ∧ _))

/-- The store is closed under non-genesis ancestors. -/
def Closed (dag : DagState) : Prop :=
  ∀ r b, dag.getBlock r = some b → dag.HasAncestors b

theorem HasAncestors.acceptBlock {dag : DagState} {b : VerifiedBlock} (h : dag.HasAncestors b)
    (x : VerifiedBlock) : (dag.acceptBlock x).HasAncestors b := by
  intro a ha hpos
  rw [containsBlock_acceptBlock, h a ha hpos, Bool.or_true]

theorem CausalOrder.append {dag : DagState} {l m : List VerifiedBlock} (hl : dag.CausalOrder l)
    (hm : (dag.acceptBlocks l).CausalOrder m) : dag.CausalOrder (l ++ m) := by
  induction l generalizing dag with
  | nil => exact hm
  | cons b rest ih => exact ⟨hl.1, ih hl.2 hm⟩

theorem CausalOrder.split {dag : DagState} {l m : List VerifiedBlock} (h : dag.CausalOrder (l ++ m)) :
    dag.CausalOrder l ∧ (dag.acceptBlocks l).CausalOrder m := by
  induction l generalizing dag with
  | nil => exact ⟨trivial, h⟩
  | cons b rest ih =>
    obtain ⟨hrest, hm⟩ := ih h.2
    exact ⟨⟨h.1, hrest⟩, hm⟩

/-- Only what is stored matters. -/
theorem CausalOrder.congr {dag dag' : DagState} (h : ∀ r, dag.containsBlock r = dag'.containsBlock r)
    {l : List VerifiedBlock} (hl : dag.CausalOrder l) : dag'.CausalOrder l := by
  induction l generalizing dag dag' with
  | nil => trivial
  | cons b rest ih =>
    refine ⟨fun a ha hpos => ?_, ih (fun r => ?_) hl.2⟩
    · rw [← h a]
      exact hl.1 a ha hpos
    · rw [containsBlock_acceptBlock, containsBlock_acceptBlock, h r]

/-- Blocks whose ancestors are all stored may be inserted in any order. -/
theorem CausalOrder.of_hasAncestors {dag : DagState} {l : List VerifiedBlock}
    (h : ∀ b ∈ l, dag.HasAncestors b) : dag.CausalOrder l := by
  induction l generalizing dag with
  | nil => trivial
  | cons b rest ih =>
    refine ⟨h b (List.mem_cons_self ..), ih fun x hx => ?_⟩
    exact (h x (List.mem_cons_of_mem _ hx)).acceptBlock b

theorem Closed.acceptBlock {dag : DagState} (hc : dag.Closed) {b : VerifiedBlock}
    (hb : dag.HasAncestors b) : (dag.acceptBlock b).Closed := by
  intro r x hx
  rw [getBlock_acceptBlock] at hx
  split_ifs at hx with hr
  · rw [← Option.some.inj hx]
    exact hb.acceptBlock b
  · exact (hc r x hx).acceptBlock b

theorem Closed.acceptBlocks {dag : DagState} (hc : dag.Closed) {l : List VerifiedBlock}
    (hl : dag.CausalOrder l) : (dag.acceptBlocks l).Closed := by
  induction l generalizing dag with
  | nil => exact hc
  | cons b rest ih => exact ih (hc.acceptBlock hl.1) hl.2

/-- The fresh store holds only genesis blocks, which list nothing. -/
theorem closed_new (sha3 : List UInt8 → BlockDigest) (c : Committee) : (new sha3 c).Closed := by
  intro r b h a ha
  have hmem : b ∈ genesisBlocks sha3 c := mem_genesisBlocks h
  obtain ⟨i, -, rfl⟩ := List.mem_map.mp hmem
  cases ha

/-! ### Commit tracking -/

/-- Mark a block as committed; false if it already was. -/
def setCommitted (dag : DagState) (r : BlockRef) : Bool × DagState :=
  (!dag.isCommitted r, { dag with committed := insert r dag.committed })

/-! ### The read-only causal traversal -/

/-- Push the ancestors above `gcRound` that are uncommitted and not visited yet. -/
def pushAncestors (dag : DagState) (gcRound : Round) :
    List BlockRef → Finset BlockRef → List VerifiedBlock → Finset BlockRef × List VerifiedBlock
  | [], visited, stack => (visited, stack)
  | a :: rest, visited, stack =>
    if gcRound < a.round ∧ dag.isCommitted a = false ∧ a ∉ visited then
      match dag.getBlock a with
      | some b => pushAncestors dag gcRound rest (insert a visited) (b :: stack)
      | none => pushAncestors dag gcRound rest (insert a visited) stack
    else pushAncestors dag gcRound rest visited stack

/-- The stack loop: the blocks in the order they are popped. -/
def causalLoop (dag : DagState) (gcRound : Round) :
    Nat → Finset BlockRef → List VerifiedBlock → Option (List VerifiedBlock)
  | _, _, [] => some []
  | 0, _, _ :: _ => none
  | n + 1, visited, b :: stack =>
    let pushed := dag.pushAncestors gcRound b.ancestors visited stack
    (causalLoop dag gcRound n pushed.1 pushed.2).map (b :: ·)

/-- Enough fuel for a walk that visits stored blocks once. -/
def walkFuel (dag : DagState) : Nat := dag.blocks.map.size + dag.genesis.map.size + 1

/-- All uncommitted blocks in the causal cone of `leaderRef` above `gcRound`, in
the order the depth-first walk pops them. Empty if the leader is not found or
already committed. -/
def getCausalBlocks (dag : DagState) (leaderRef : BlockRef) (gcRound : Round) :
    Except Panic (List VerifiedBlock) :=
  match dag.getBlock leaderRef with
  | none => .ok []
  | some leader =>
    if dag.isCommitted leaderRef then .ok []
    else
      match dag.causalLoop gcRound dag.walkFuel {leaderRef} [leader] with
      | none => .error .outOfFuel
      | some blocks => .ok blocks

end DagState

end DualOptimistic.Consensus
