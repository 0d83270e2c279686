import DualOptimistic.Consensus.CausalRuns
import DualOptimistic.Data.Machine

/-! The simulated network (`consensus/src/sim/network.rs`, `consensus/src/sim/node.rs`).

Every node has a consensus engine, a clock and an inbox. It builds blocks, which its own engine
accepts at once; a broadcast puts a block into the inboxes of the nodes that no partition cuts
off; and a node empties its inbox into its engine. What a node has taken and what waits for it
are one history, and an engine is where the blocks taken leave it (`SimulatedNode.Ran`). If blocks
reach a node only after what they list, whatever the interleaving, no engine panics and the
engines agree (`Simulation.nodes_agree`). -/
namespace DualOptimistic.Consensus
open Data

/-! ### Blocks -/

/-- When the comparison of `set_ancestors` answers `Less`: the block's own author comes first, then
it goes by author. Of two references of the own author each is less than the other. -/
def Precedes (own : AuthorityIndex) (a b : BlockRef) : Prop :=
  a.author = own ∨ b.author ≠ own ∧ a.author < b.author

instance (own : AuthorityIndex) : DecidableRel (Precedes own) :=
  fun _ _ => inferInstanceAs (Decidable (_ ∨ _))

/-- What `TestBlock` builds: no transactions, epoch 0, the ancestors sorted by insertion, as `sort_by`
does it with few elements. A reference passes those before it that it precedes, so references of
one other author stay as they are, and those of the own author are turned around. -/
def testBlock (sha3 : List UInt8 → BlockDigest) (round : Fin u32Size) (author : AuthorityIndex)
    (ancestors : List BlockRef) (timestampMs : BlockTimestampMs) : VerifiedBlock :=
  .newVerified sha3
    { round := round, author := author, timestampMs := timestampMs
      ancestors := ancestors.insertionSort fun a b => ¬ Precedes author b a, round_lt := round.isLt }

/-- Two ancestors of the block's own author and two of another. -/
example : [BlockRef.new 2 0 0, .new 2 1 0, .new 1 0 0, .new 1 1 0].insertionSort (fun a b => ¬ Precedes 1 b a) =
    [.new 1 1 0, .new 2 1 0, .new 2 0 0, .new 1 0 0] := by decide

theorem mem_testBlock_ancestors {sha3 : List UInt8 → BlockDigest} {round : Fin u32Size} {author : AuthorityIndex}
    {ancestors : List BlockRef} {timestampMs : BlockTimestampMs} {a : BlockRef} :
    a ∈ (testBlock sha3 round author ancestors timestampMs).ancestors ↔ a ∈ ancestors :=
  List.mem_insertionSort _

/-! ### Nodes -/

/-- A consensus engine with its clock and its inbox. The random numbers, which only a test would
draw, are left out; `sent` are the events of `rx` since the start, and `taken` records the blocks
handed to the engine. -/
structure SimulatedNode where
  index : AuthorityIndex
  clock : Nat
  node : ConsensusNode
  sent : List ConsensusEvent
  inbox : List VerifiedBlock
  taken : List VerifiedBlock

namespace SimulatedNode

def new (sha3 : List UInt8 → BlockDigest) (c : Committee) (index : AuthorityIndex) : SimulatedNode :=
  ⟨index, 0, .new sha3 c, [], [], []⟩

/-- Everything that has reached the node, oldest first. -/
def history (s : SimulatedNode) : List VerifiedBlock := s.taken ++ s.inbox

/-- The next block of the node: the clock moves on by one for each. -/
def proposal (sha3 : List UInt8 → BlockDigest) (s : SimulatedNode) (round : Fin u32Size)
    (ancestors : List BlockRef) : VerifiedBlock :=
  testBlock sha3 round s.index ancestors (s.clock + 1)

/-- Hand a block to the engine. -/
def acceptBlock (sha3 : List UInt8 → BlockDigest) (s : SimulatedNode) (b : VerifiedBlock) :
    Except Panic SimulatedNode :=
  let o := s.node.acceptBlock sha3 b
  o.node.map fun node => { s with node := node, sent := s.sent ++ o.events, taken := s.taken ++ [b] }

def acceptAll (sha3 : List UInt8 → BlockDigest) (s : SimulatedNode) :
    List VerifiedBlock → Except Panic SimulatedNode
  | [] => .ok s
  | b :: rest => (s.acceptBlock sha3 b).bind fun next => next.acceptAll sha3 rest

/-- Build a block and accept it locally. -/
def buildBlock (sha3 : List UInt8 → BlockDigest) (s : SimulatedNode) (round : Fin u32Size)
    (ancestors : List BlockRef) : Except Panic (VerifiedBlock × SimulatedNode) :=
  let block := s.proposal sha3 round ancestors
  (acceptBlock sha3 { s with clock := s.clock + 1 } block).map fun next => (block, next)

/-- Process all blocks waiting in the inbox. -/
def processInbox (sha3 : List UInt8 → BlockDigest) (s : SimulatedNode) : Except Panic SimulatedNode :=
  acceptAll sha3 { s with inbox := [] } s.inbox

end SimulatedNode

/-! ### The network -/

/-- The nodes of a simulation and the pairs of them that are cut off; `broadcasts` records the
blocks that were broadcast. -/
structure Simulation (n : Nat) where
  nodes : Fin n → SimulatedNode
  partitioned : Finset (Fin n × Fin n)
  broadcasts : List VerifiedBlock

/-- What the code that drives a simulation can call. -/
inductive SimAction (n : Nat) where
  | buildBlock (node : Fin n) (round : Fin u32Size) (ancestors : List BlockRef)
  | broadcast (sender : Fin n) (block : VerifiedBlock)
  | processInbox (node : Fin n)
  | partition (a b : Fin n)
  | heal (a b : Fin n)

namespace Simulation
variable {n : Nat}

def new (sha3 : List UInt8 → BlockDigest) (c : Committee) (n : Nat) : Simulation n :=
  ⟨fun i => .new sha3 c i, ∅, []⟩

/-- The recipient of a broadcast is another node, and not cut off. -/
def Reaches (s : Simulation n) (sender recipient : Fin n) : Prop :=
  recipient ≠ sender ∧ (sender, recipient) ∉ s.partitioned

instance (s : Simulation n) (sender recipient : Fin n) : Decidable (s.Reaches sender recipient) :=
  inferInstanceAs (Decidable (_ ∧ _))

/-- Blocked messages are silently dropped. -/
def broadcast (s : Simulation n) (sender : Fin n) (block : VerifiedBlock) : Simulation n where
  nodes recipient :=
    { s.nodes recipient with
      inbox :=
        if s.Reaches sender recipient then (s.nodes recipient).inbox ++ [block] else (s.nodes recipient).inbox }
  partitioned := s.partitioned
  broadcasts := s.broadcasts ++ [block]

/-- Block all messages between two nodes. -/
def partition (s : Simulation n) (a b : Fin n) : Simulation n :=
  { s with partitioned := insert (b, a) (insert (a, b) s.partitioned) }

/-- Restore connectivity. -/
def heal (s : Simulation n) (a b : Fin n) : Simulation n :=
  { s with partitioned := (s.partitioned.erase (a, b)).erase (b, a) }

def setNode (s : Simulation n) (i : Fin n) (node : SimulatedNode) : Simulation n :=
  { s with nodes := Function.update s.nodes i node }

/-- One call; a panic of an engine ends the simulation. -/
def step (sha3 : List UInt8 → BlockDigest) (s : Simulation n) : SimAction n → Except Panic (Simulation n)
  | .buildBlock i round ancestors =>
    ((s.nodes i).buildBlock sha3 round ancestors).map fun built => s.setNode i built.2
  | .broadcast sender block => .ok (s.broadcast sender block)
  | .processInbox i => ((s.nodes i).processInbox sha3).map (s.setNode i)
  | .partition a b => .ok (s.partition a b)
  | .heal a b => .ok (s.heal a b)

/-- The next call, unless the simulation has ended. -/
def advance (sha3 : List UInt8 → BlockDigest) (s : Except Panic (Simulation n)) (action : SimAction n) :
    Except Panic (Simulation n) :=
  s.bind fun s => s.step sha3 action

def run (sha3 : List UInt8 → BlockDigest) (s : Simulation n) (actions : List (SimAction n)) :
    Except Panic (Simulation n) :=
  actions.foldl (advance sha3) (.ok s)

/-- The blocks some engine has been handed. -/
def built (s : Simulation n) : List VerifiedBlock := (List.finRange n).flatMap fun i => (s.nodes i).taken

end Simulation

/-! ### What the blocks keep to -/

/-- What a new block keeps to, beside the blocks there are: it lists each ancestor once, at lower
rounds, with a quorum of the round before. An authority that is not byzantine has no other block
of the round, and no other block hashes to the same reference. -/
@[mk_iff] structure Proper (c : Committee) (byzantine : Finset AuthorityIndex) (blocks : List VerifiedBlock)
    (b : VerifiedBlock) : Prop where
  pos : 0 < b.round
  distinct : b.ancestors.Nodup
  lower : ∀ a ∈ b.ancestors, a.round < b.round
  parents : c.Quorum ((b.ancestors.filter fun a => decide (a.round + 1 = b.round)).map BlockRef.author).toFinset
  once : b.author ∉ byzantine → ∀ x ∈ blocks, x.slot ≠ b.slot
  named : ∀ x ∈ blocks, x.reference ≠ b.reference

instance (c : Committee) (byzantine : Finset AuthorityIndex) (blocks : List VerifiedBlock) (b : VerifiedBlock) :
    Decidable (Proper c byzantine blocks b) :=
  decidable_of_iff _ (proper_iff c byzantine blocks b).symm

/-- Blocks that were proper one by one. -/
structure Proposals (c : Committee) (byzantine : Finset AuthorityIndex) (blocks : List VerifiedBlock) : Prop where
  pos : ∀ b ∈ blocks, 0 < b.round
  member : ∀ b ∈ blocks, b.author < c.size
  distinct : ∀ b ∈ blocks, b.ancestors.Nodup
  lower : ∀ b ∈ blocks, ∀ a ∈ b.ancestors, a.round < b.round
  parents : ∀ b ∈ blocks,
    c.Quorum ((b.ancestors.filter fun a => decide (a.round + 1 = b.round)).map BlockRef.author).toFinset
  once : ∀ b ∈ blocks, ∀ b' ∈ blocks, b.author ∉ byzantine → b.slot = b'.slot → b = b'
  named : ∀ b ∈ blocks, ∀ b' ∈ blocks, b.reference = b'.reference → b = b'

namespace Proposals
variable {c : Committee} {byzantine : Finset AuthorityIndex} {blocks : List VerifiedBlock}

theorem mono (h : Proposals c byzantine blocks) {fewer : List VerifiedBlock} (hsub : ∀ b ∈ fewer, b ∈ blocks) :
    Proposals c byzantine fewer where
  pos b hb := h.pos b (hsub b hb)
  member b hb := h.member b (hsub b hb)
  distinct b hb := h.distinct b (hsub b hb)
  lower b hb := h.lower b (hsub b hb)
  parents b hb := h.parents b (hsub b hb)
  once b hb b' hb' := h.once b (hsub b hb) b' (hsub b' hb')
  named b hb b' hb' := h.named b (hsub b hb) b' (hsub b' hb')

/-- One more proper block. -/
theorem cons (h : Proposals c byzantine blocks) {b : VerifiedBlock} (hmember : b.author < c.size)
    (hb : Proper c byzantine blocks b) : Proposals c byzantine (b :: blocks) where
  pos := List.forall_mem_cons.mpr ⟨hb.pos, h.pos⟩
  member := List.forall_mem_cons.mpr ⟨hmember, h.member⟩
  distinct := List.forall_mem_cons.mpr ⟨hb.distinct, h.distinct⟩
  lower := List.forall_mem_cons.mpr ⟨hb.lower, h.lower⟩
  parents := List.forall_mem_cons.mpr ⟨hb.parents, h.parents⟩
  once := by
    intro x hx x' hx' hhonest hslot
    rcases List.mem_cons.mp hx with rfl | hold
    · rcases List.mem_cons.mp hx' with rfl | hold'
      · rfl
      · exact absurd hslot.symm (hb.once hhonest x' hold')
    · rcases List.mem_cons.mp hx' with rfl | hold'
      · have hauthor : x.author = x'.author := congrArg Slot.authority hslot
        exact absurd hslot (hb.once (hauthor ▸ hhonest) x hold)
      · exact h.once x hold x' hold' hhonest hslot
  named := by
    intro x hx x' hx' href
    rcases List.mem_cons.mp hx with rfl | hold
    · rcases List.mem_cons.mp hx' with rfl | hold'
      · rfl
      · exact absurd href.symm (hb.named x' hold')
    · rcases List.mem_cons.mp hx' with rfl | hold'
      · exact absurd href (hb.named x hold)
      · exact h.named x hold x' hold' href

/-- The universe of the blocks. -/
def toUniverse (h : Proposals c byzantine blocks) (hfaults : c.quorums.total byzantine ≤ c.faultTolerance) :
    Universe c :=
  .ofBlocks c blocks byzantine h.member h.lower hfaults h.once

variable (h : Proposals c byzantine blocks) (hfaults : c.quorums.total byzantine ≤ c.faultTolerance)

theorem has {b : VerifiedBlock} (hb : b ∈ blocks) : (h.toUniverse hfaults).Has b := by
  show (blocks.find? fun x => decide (x.reference = b.reference)) = some b
  cases hfind : blocks.find? fun x => decide (x.reference = b.reference) with
  | none => simpa using List.find?_eq_none.mp hfind b hb
  | some x =>
    have href : x.reference = b.reference := by simpa using List.find?_some hfind
    rw [h.named x (List.mem_of_find?_eq_some hfind) b hb href]

theorem toUniverse_distinct : (h.toUniverse hfaults).Distinct :=
  fun _ b hb => h.distinct b (Universe.mem_of_ofBlocks hb)

theorem toUniverse_parents : (h.toUniverse hfaults).QuorumParents :=
  fun _ b hb _ => h.parents b (Universe.mem_of_ofBlocks hb)

end Proposals

/-! ### Histories -/

section
variable {sha3 : List UInt8 → BlockDigest} {c : Committee}

/-- A larger store accepts what a smaller one does. -/
theorem DagState.CausalOrder.mono {dag dag' : DagState}
    (h : ∀ r, dag.containsBlock r = true → dag'.containsBlock r = true) {l : List VerifiedBlock}
    (hl : dag.CausalOrder l) : dag'.CausalOrder l := by
  induction l generalizing dag dag' with
  | nil => trivial
  | cons b rest ih =>
    refine ⟨fun a ha hpos => h a (hl.1 a ha hpos), ih (fun r hr => ?_) hl.2⟩
    rw [containsBlock_acceptBlock, Bool.or_eq_true] at hr ⊢
    exact hr.imp_right (h r)

/-- A block may come in as soon as its ancestors are there. -/
theorem causalOrder_insert {l r : List VerifiedBlock} (h : (DagState.new sha3 c).CausalOrder (l ++ r))
    {b : VerifiedBlock} (hb : ∀ a ∈ b.ancestors, 0 < a.round → a ∈ l.map VerifiedBlock.reference) :
    (DagState.new sha3 c).CausalOrder (l ++ b :: r) := by
  obtain ⟨hl, hr⟩ := h.split
  refine hl.append ⟨fun a ha hpos => ?_, hr.mono fun x hx => ?_⟩
  · rw [DagState.containsBlock_acceptBlocks]
    exact .inl (hb a ha hpos)
  · rw [DagState.containsBlock_acceptBlock, hx, Bool.or_true]

/-- Blocks handed over one by one are processed in that order. -/
theorem processed_singletons (l : List VerifiedBlock) : BlockManager.processed (l.map ([·])) = l := by
  induction l with
  | nil => rfl
  | cons b rest ih => exact congrArg (b :: ·) ih

theorem flatten_singletons (l : List VerifiedBlock) : (l.map ([·])).flatten = l := by
  rw [← List.flatMap_def, List.flatMap_singleton']

/-- One more call. -/
theorem ConsensusNode.run_concat {node last : ConsensusNode} {batches : List (List VerifiedBlock)}
    (h : (node.run sha3 batches).node = .ok last) (batch : List VerifiedBlock) :
    (node.run sha3 (batches ++ [batch])).node = (last.acceptBlocks sha3 batch).node ∧
      (node.run sha3 (batches ++ [batch])).events =
        (node.run sha3 batches).events ++ (last.acceptBlocks sha3 batch).events := by
  induction batches generalizing node with
  | nil =>
    obtain rfl : node = last := Except.ok.inj h
    cases hnode : (node.acceptBlocks sha3 batch).node with
    | error p => simp [run, hnode, NodeOutcome.events]
    | ok next => simp [run, hnode, NodeOutcome.events]
  | cons first rest ih =>
    rw [run] at h
    rw [List.cons_append, run, run]
    cases hnode : (node.acceptBlocks sha3 first).node with
    | error p => simp [hnode] at h
    | ok next =>
      simp only [hnode] at h
      obtain ⟨hlast, hevents⟩ := ih h
      refine ⟨hlast, ?_⟩
      simp only [NodeOutcome.events, List.map_append, List.append_assoc] at hevents ⊢
      rw [hevents]

namespace SimulatedNode

/-- The engine is where the blocks taken, one by one, leave a fresh one. -/
structure Ran (sha3 : List UInt8 → BlockDigest) (c : Committee) (s : SimulatedNode) : Prop where
  node : ((ConsensusNode.new sha3 c).run sha3 (s.taken.map ([·]))).node = .ok s.node
  sent : ((ConsensusNode.new sha3 c).run sha3 (s.taken.map ([·]))).events = s.sent

variable {U : Universe c} {s : SimulatedNode}

/-- **One block.** Taken after its ancestors, it does not make the engine panic. -/
theorem Ran.acceptBlock (h : s.Ran sha3 c) (hdistinct : U.Distinct) {b : VerifiedBlock}
    (hhas : ∀ x ∈ s.taken ++ [b], U.Has x) (hcausal : (DagState.new sha3 c).CausalOrder (s.taken ++ [b])) :
    ∃ node sent, s.acceptBlock sha3 b = .ok { s with node := node, sent := sent, taken := s.taken ++ [b] } ∧
      Ran sha3 c { s with node := node, sent := sent, taken := s.taken ++ [b] } := by
  have hfed : ∀ x ∈ ((s.taken ++ [b]).map ([·])).flatten, U.Has x := by rwa [flatten_singletons]
  have horder : (DagState.new sha3 c).CausalOrder (BlockManager.processed ((s.taken ++ [b]).map ([·]))) := by
    rwa [processed_singletons]
  obtain ⟨vs, new, node, hadds⟩ := (causal_new sha3 U).run hdistinct.linksDistinct hfed horder
  obtain ⟨hnode, hevents⟩ := ConsensusNode.run_concat h.node [b]
  have hran := hadds.node
  rw [List.map_append, List.map_singleton, hnode] at hran
  refine ⟨node, s.sent ++ (s.node.acceptBlock sha3 b).events, ?_, ?_, ?_⟩
  · show Except.map _ (s.node.acceptBlocks sha3 [b]).node = _
    rw [hran]
    rfl
  · rw [List.map_append, List.map_singleton, hnode, hran]
  · rw [List.map_append, List.map_singleton, hevents, h.sent]
    rfl

/-- **A row of blocks**, one after another. -/
theorem Ran.acceptAll (hdistinct : U.Distinct) (h : s.Ran sha3 c) {l : List VerifiedBlock}
    (hhas : ∀ x ∈ s.taken ++ l, U.Has x) (hcausal : (DagState.new sha3 c).CausalOrder (s.taken ++ l)) :
    ∃ node sent, s.acceptAll sha3 l = .ok { s with node := node, sent := sent, taken := s.taken ++ l } ∧
      Ran sha3 c { s with node := node, sent := sent, taken := s.taken ++ l } := by
  induction l generalizing s with
  | nil => exact ⟨s.node, s.sent, by simp [SimulatedNode.acceptAll], by simpa using h⟩
  | cons b rest ih =>
    rw [List.append_cons] at hhas hcausal
    obtain ⟨node, sent, hfirst, hran⟩ := h.acceptBlock hdistinct
      (fun x hx => hhas x (List.mem_append_left _ hx)) hcausal.split.1
    obtain ⟨last, all, hrest, hran'⟩ := ih hran hhas hcausal
    refine ⟨last, all, ?_, ?_⟩
    · rw [SimulatedNode.acceptAll, hfirst]
      simpa [Except.bind] using hrest
    · simpa using hran'

end SimulatedNode

/-! ### Agreement -/

namespace Simulation
variable {n : Nat}

theorem mem_built {s : Simulation n} {b : VerifiedBlock} : b ∈ s.built ↔ ∃ i, b ∈ (s.nodes i).taken := by
  simp [built]

/-- What the driver of a simulation keeps to. Blocks are proper and list what their author has
taken; a broadcast block is one the sender has taken, and reaches nobody before what it lists. -/
def Permits (sha3 : List UInt8 → BlockDigest) (c : Committee) (byzantine : Finset AuthorityIndex)
    (s : Simulation n) : SimAction n → Prop
  | .buildBlock i round ancestors =>
    Proper c byzantine s.built ((s.nodes i).proposal sha3 round ancestors) ∧
      ∀ a ∈ ancestors, 0 < a.round → a ∈ (s.nodes i).taken.map VerifiedBlock.reference
  | .broadcast sender block =>
    block ∈ (s.nodes sender).taken ∧ ∀ i, s.Reaches sender i → ∀ a ∈ block.ancestors, 0 < a.round →
      a ∈ (s.nodes i).history.map VerifiedBlock.reference
  | .processInbox _ | .partition .. | .heal .. => True

instance (sha3 : List UInt8 → BlockDigest) (c : Committee) (byzantine : Finset AuthorityIndex) (s : Simulation n) :
    (action : SimAction n) → Decidable (s.Permits sha3 c byzantine action)
  | .buildBlock .. => inferInstanceAs (Decidable (_ ∧ ∀ a ∈ _, _ → _))
  | .broadcast .. => inferInstanceAs (Decidable (_ ∧ ∀ _, _ → ∀ a ∈ _, _ → _))
  | .processInbox _ | .partition .. | .heal .. => inferInstanceAs (Decidable True)

/-- The engines are where their blocks leave them, blocks reach nodes in causal order, and all
blocks are proposals of the nodes. -/
structure Consistent (sha3 : List UInt8 → BlockDigest) (c : Committee) (byzantine : Finset AuthorityIndex)
    (s : Simulation n) : Prop where
  index : ∀ i, (s.nodes i).index = i
  ran : ∀ i, (s.nodes i).Ran sha3 c
  causal : ∀ i, (DagState.new sha3 c).CausalOrder (s.nodes i).history
  waiting : ∀ i, ∀ b ∈ (s.nodes i).inbox, b ∈ s.built
  proposals : Proposals c byzantine s.built

theorem consistent_new (sha3 : List UInt8 → BlockDigest) (c : Committee) (byzantine : Finset AuthorityIndex)
    (n : Nat) : (new sha3 c n).Consistent sha3 c byzantine where
  index _ := rfl
  ran _ := ⟨rfl, rfl⟩
  causal _ := trivial
  waiting _ _ hb := absurd hb List.not_mem_nil
  proposals := by
    have hnone : ∀ {b : VerifiedBlock}, b ∉ (new sha3 c n).built := by simp [mem_built, new, SimulatedNode.new]
    constructor
    all_goals exact fun b hb => absurd hb hnone

theorem mem_built_setNode {s : Simulation n} {i : Fin n} {next : SimulatedNode} {b : VerifiedBlock}
    (hb : b ∈ (s.setNode i next).built) : b ∈ next.taken ∨ b ∈ s.built := by
  obtain ⟨j, hj⟩ := mem_built.mp hb
  by_cases hji : j = i
  · subst hji
    left
    simpa [setNode] using hj
  · right
    refine mem_built.mpr ⟨j, ?_⟩
    simpa [setNode, hji] using hj

theorem built_subset_setNode {s : Simulation n} {i : Fin n} {next : SimulatedNode}
    (htaken : (s.nodes i).taken <+: next.taken) {b : VerifiedBlock} (hb : b ∈ s.built) :
    b ∈ (s.setNode i next).built := by
  obtain ⟨j, hj⟩ := mem_built.mp hb
  refine mem_built.mpr ⟨j, ?_⟩
  by_cases hji : j = i
  · subst hji
    simpa [setNode] using htaken.subset hj
  · simpa [setNode, hji] using hj

/-- A broadcast comes last in the histories it reaches. -/
theorem history_broadcast (s : Simulation n) (sender : Fin n) (block : VerifiedBlock) (i : Fin n) :
    ((s.broadcast sender block).nodes i).history =
      if s.Reaches sender i then (s.nodes i).history ++ [block] else (s.nodes i).history := by
  by_cases hi : s.Reaches sender i
  · simp [SimulatedNode.history, broadcast, hi]
  · simp [SimulatedNode.history, broadcast, hi]

namespace Consistent
variable {byzantine : Finset AuthorityIndex} {s : Simulation n}

/-- What has reached a node was built. -/
theorem history_built (h : s.Consistent sha3 c byzantine) {i : Fin n} {b : VerifiedBlock}
    (hb : b ∈ (s.nodes i).history) : b ∈ s.built := by
  rcases List.mem_append.mp hb with hb | hb
  · exact mem_built.mpr ⟨i, hb⟩
  · exact h.waiting i b hb

/-- One node takes more blocks. -/
theorem setNode (h : s.Consistent sha3 c byzantine) {i : Fin n} {next : SimulatedNode} (hindex : next.index = i)
    (hran : next.Ran sha3 c) (hcausal : (DagState.new sha3 c).CausalOrder next.history)
    (htaken : (s.nodes i).taken <+: next.taken) (hinbox : next.inbox ⊆ (s.nodes i).inbox)
    (hproposals : Proposals c byzantine (s.setNode i next).built) : (s.setNode i next).Consistent sha3 c byzantine := by
  have hset : ∀ j, (s.setNode i next).nodes j = if j = i then next else s.nodes j :=
    fun j => Function.update_apply ..
  refine ⟨fun j => ?_, fun j => ?_, fun j => ?_, fun j b hb => ?_, hproposals⟩
  · rw [hset]
    split
    · next hji => rw [hindex, hji]
    · exact h.index j
  · rw [hset]
    split
    · exact hran
    · exact h.ran j
  · rw [hset]
    split
    · exact hcausal
    · exact h.causal j
  · apply built_subset_setNode htaken
    rw [hset] at hb
    split at hb
    · exact h.waiting i b (hinbox hb)
    · exact h.waiting j b hb

/-- **A node builds a block**, which is its own engine's next. -/
theorem buildBlock (hn : n ≤ c.size) (hfaults : c.quorums.total byzantine ≤ c.faultTolerance)
    (h : s.Consistent sha3 c byzantine) {i : Fin n} {round : Fin u32Size} {ancestors : List BlockRef}
    (hproper : Proper c byzantine s.built ((s.nodes i).proposal sha3 round ancestors))
    (hlisted : ∀ a ∈ ancestors, 0 < a.round → a ∈ (s.nodes i).taken.map VerifiedBlock.reference) :
    ∃ next, s.step sha3 (.buildBlock i round ancestors) = .ok (s.setNode i next) ∧
      next.taken = (s.nodes i).taken ++ [(s.nodes i).proposal sha3 round ancestors] ∧
      next.inbox = (s.nodes i).inbox ∧ (s.setNode i next).Consistent sha3 c byzantine := by
  set b := (s.nodes i).proposal sha3 round ancestors with hb
  have hmember : b.author < c.size := by
    show (s.nodes i).index < c.size
    rw [h.index i]
    exact Nat.lt_of_lt_of_le i.isLt hn
  have hmore := h.proposals.cons hmember hproper
  have htaken : ∀ x ∈ (s.nodes i).taken ++ [b], x ∈ b :: s.built := by
    intro x hx
    rcases List.mem_append.mp hx with hx | hx
    · exact List.mem_cons_of_mem _ (mem_built.mpr ⟨i, hx⟩)
    · exact List.mem_cons.mpr (.inl (List.mem_singleton.mp hx))
  have hcausal : (DagState.new sha3 c).CausalOrder ((s.nodes i).taken ++ b :: (s.nodes i).inbox) :=
    causalOrder_insert (h.causal i) fun a ha hpos => hlisted a (mem_testBlock_ancestors.mp ha) hpos
  have hran : SimulatedNode.Ran sha3 c { s.nodes i with clock := (s.nodes i).clock + 1 } :=
    ⟨(h.ran i).node, (h.ran i).sent⟩
  have hfirst := hcausal
  rw [List.append_cons] at hfirst
  obtain ⟨node, sent, haccept, hran⟩ := hran.acceptBlock (hmore.toUniverse_distinct hfaults)
    (fun x hx => hmore.has hfaults (htaken x hx)) hfirst.split.1
  let next : SimulatedNode :=
    { s.nodes i with
      clock := (s.nodes i).clock + 1, node := node, sent := sent, taken := (s.nodes i).taken ++ [b] }
  refine ⟨next, ?_, rfl, rfl, h.setNode (h.index i) hran ?_ (List.prefix_append ..) (List.Subset.refl _) ?_⟩
  · show Except.map _ (Except.map _ (SimulatedNode.acceptBlock sha3 _ b)) = _
    rw [haccept]
    rfl
  · exact hfirst
  · refine hmore.mono fun x hx => ?_
    rcases mem_built_setNode hx with hx | hx
    · exact htaken x hx
    · exact List.mem_cons_of_mem _ hx

/-- **A node empties its inbox.** -/
theorem processInbox (hfaults : c.quorums.total byzantine ≤ c.faultTolerance) (h : s.Consistent sha3 c byzantine)
    (i : Fin n) : ∃ next, s.step sha3 (.processInbox i) = .ok (s.setNode i next) ∧
      next.taken = (s.nodes i).history ∧ next.inbox = [] ∧ (s.setNode i next).Consistent sha3 c byzantine := by
  have hran : SimulatedNode.Ran sha3 c { s.nodes i with inbox := [] } := ⟨(h.ran i).node, (h.ran i).sent⟩
  obtain ⟨node, sent, haccept, hran⟩ := hran.acceptAll (h.proposals.toUniverse_distinct hfaults)
    (fun x hx => h.proposals.has hfaults (h.history_built hx)) (h.causal i)
  let next : SimulatedNode :=
    { s.nodes i with node := node, sent := sent, inbox := [], taken := (s.nodes i).history }
  refine ⟨next, ?_, rfl, rfl, h.setNode (h.index i) hran ?_ (List.prefix_append ..) (List.nil_subset _) ?_⟩
  · show Except.map _ (SimulatedNode.acceptAll sha3 _ _) = _
    rw [haccept]
    rfl
  · show (DagState.new sha3 c).CausalOrder ((s.nodes i).history ++ [])
    rw [List.append_nil]
    exact h.causal i
  · refine h.proposals.mono fun x hx => ?_
    rcases mem_built_setNode hx with hx | hx
    · exact h.history_built hx
    · exact hx

/-- **A block is broadcast.** -/
theorem broadcast (h : s.Consistent sha3 c byzantine) {sender : Fin n} {block : VerifiedBlock}
    (hblock : block ∈ (s.nodes sender).taken)
    (hreached : ∀ i, s.Reaches sender i → ∀ a ∈ block.ancestors, 0 < a.round →
      a ∈ (s.nodes i).history.map VerifiedBlock.reference) :
    (s.broadcast sender block).Consistent sha3 c byzantine where
  index := h.index
  ran i := ⟨(h.ran i).node, (h.ran i).sent⟩
  causal i := by
    rw [history_broadcast]
    split
    · next hi =>
      refine causalOrder_insert ?_ (hreached i hi)
      rw [List.append_nil]
      exact h.causal i
    · exact h.causal i
  waiting i b hb := by
    have hhistory : b ∈ ((s.broadcast sender block).nodes i).history := List.mem_append_right _ hb
    rw [history_broadcast] at hhistory
    split at hhistory
    · rcases List.mem_append.mp hhistory with hb | hb
      · exact h.history_built hb
      · rw [List.mem_singleton.mp hb]
        exact mem_built.mpr ⟨sender, hblock⟩
    · exact h.history_built hhistory
  proposals := h.proposals

/-- **One call** that the rule permits. -/
theorem step (hn : n ≤ c.size) (hfaults : c.quorums.total byzantine ≤ c.faultTolerance)
    (h : s.Consistent sha3 c byzantine) {action : SimAction n} (hpermits : s.Permits sha3 c byzantine action) :
    ∃ next, s.step sha3 action = .ok next ∧ next.Consistent sha3 c byzantine := by
  cases action with
  | buildBlock i round ancestors =>
    obtain ⟨hproper, hlisted⟩ := hpermits
    obtain ⟨next, hstep, -, -, hnext⟩ := h.buildBlock hn hfaults hproper hlisted
    exact ⟨_, hstep, hnext⟩
  | broadcast sender block => exact ⟨_, rfl, h.broadcast hpermits.1 hpermits.2⟩
  | processInbox i =>
    obtain ⟨next, hstep, -, -, hnext⟩ := h.processInbox hfaults i
    exact ⟨_, hstep, hnext⟩
  | partition a b => exact ⟨_, rfl, h.index, h.ran, h.causal, h.waiting, h.proposals⟩
  | heal a b => exact ⟨_, rfl, h.index, h.ran, h.causal, h.waiting, h.proposals⟩

/-- What a node has taken are blocks of the universe of the blocks that were built. -/
theorem fed (hfaults : c.quorums.total byzantine ≤ c.faultTolerance) (h : s.Consistent sha3 c byzantine) (i : Fin n) :
    ∀ b ∈ ((s.nodes i).taken.map ([·])).flatten, (h.proposals.toUniverse hfaults).Has b := by
  intro b hb
  rw [flatten_singletons] at hb
  exact h.proposals.has hfaults (mem_built.mpr ⟨i, hb⟩)

/-- What a node has taken it has taken in causal order. -/
theorem order (h : s.Consistent sha3 c byzantine) (i : Fin n) :
    (DagState.new sha3 c).CausalOrder (BlockManager.processed ((s.nodes i).taken.map ([·]))) := by
  rw [processed_singletons]
  exact (h.causal i).split.1

/-- In a consistent simulation the engines agree. -/
theorem agree (hfaults : c.quorums.total byzantine ≤ c.faultTolerance) (h : s.Consistent sha3 c byzantine)
    (i j : Fin n) :
    (hardCommits (s.nodes i).sent <+: hardCommits (s.nodes j).sent ∨
      hardCommits (s.nodes j).sent <+: hardCommits (s.nodes i).sent) ∧
      ((∀ b, b ∈ (s.nodes i).taken ↔ b ∈ (s.nodes j).taken) →
        hardCommits (s.nodes i).sent = hardCommits (s.nodes j).sent) := by
  obtain ⟨hcompare, hsame⟩ := commits_agree (h.proposals.toUniverse_distinct hfaults)
    (h.proposals.toUniverse_parents hfaults) (h.fed hfaults i) (h.fed hfaults j) (h.order i) (h.order j)
  rw [flatten_singletons, flatten_singletons, (h.ran i).sent, (h.ran j).sent] at hsame
  rw [(h.ran i).sent, (h.ran j).sent] at hcompare
  exact ⟨hcompare, fun htaken => hsame htaken fun b hb => h.proposals.pos b (mem_built.mpr ⟨i, hb⟩)⟩

end Consistent

/-- A condition on calls, at a simulation that has not ended. -/
def Running (P : Simulation n → SimAction n → Prop) : Except Panic (Simulation n) → SimAction n → Prop
  | .ok s, action => P s action
  | .error _, _ => True

instance (P : Simulation n → SimAction n → Prop) [∀ s action, Decidable (P s action)] :
    (e : Except Panic (Simulation n)) → (action : SimAction n) → Decidable (Running P e action)
  | .ok s, action => inferInstanceAs (Decidable (P s action))
  | .error _, _ => inferInstanceAs (Decidable True)

/-- What a permitted call keeps, a simulation keeps that never ends. -/
theorem run_keeps {P : Simulation n → SimAction n → Prop} {Inv : Simulation n → Prop}
    (hstep : ∀ {s action}, Inv s → P s action → ∃ next, s.step sha3 action = .ok next ∧ Inv next)
    {s : Simulation n} (h : Inv s) {actions : List (SimAction n)}
    (hrule : Along (advance sha3) (Running P) (.ok s) actions) :
    ∃ last, s.run sha3 actions = .ok last ∧ Inv last := by
  have hkeeps : ∀ (e : Except Panic (Simulation n)) (action : SimAction n), (∃ s, e = .ok s ∧ Inv s) →
      Running P e action → ∃ next, advance sha3 e action = .ok next ∧ Inv next := by
    rintro _ action ⟨s, rfl, hs⟩ hpermits
    exact hstep hs hpermits
  exact hrule.keeps hkeeps ⟨s, rfl, h⟩ actions (List.prefix_refl _)

/-- **Nodes of a simulation agree.** In whatever order nodes build blocks, broadcast them, empty
their inboxes and are cut off and connected again, if blocks are proper and reach nodes after
what they list, then no engine panics; of the final commits of two nodes one is a first part of
the other, and they are the same if the nodes have taken the same blocks. -/
theorem nodes_agree (sha3 : List UInt8 → BlockDigest) (c : Committee) (byzantine : Finset AuthorityIndex) (n : Nat)
    (hn : n ≤ c.size) (hfaults : c.quorums.total byzantine ≤ c.faultTolerance) (actions : List (SimAction n))
    (hrule : Along (advance sha3) (Running (Permits sha3 c byzantine)) (.ok (new sha3 c n)) actions) :
    ∃ s, (new sha3 c n).run sha3 actions = .ok s ∧ ∀ i j,
      (hardCommits (s.nodes i).sent <+: hardCommits (s.nodes j).sent ∨
        hardCommits (s.nodes j).sent <+: hardCommits (s.nodes i).sent) ∧
        ((∀ b, b ∈ (s.nodes i).taken ↔ b ∈ (s.nodes j).taken) →
          hardCommits (s.nodes i).sent = hardCommits (s.nodes j).sent) := by
  obtain ⟨s, hrun, hs⟩ := run_keeps (fun h hpermits => Consistent.step hn hfaults h hpermits)
    (consistent_new sha3 c byzantine n) hrule
  exact ⟨s, hrun, hs.agree hfaults⟩

/-- Two authorities, of which the second is a quorum. -/
def lopsided : Committee where
  epoch := 0
  authorities := [⟨1⟩, ⟨3⟩]
  nonempty := List.cons_ne_nil _ _
  size_lt := by decide
  stake_pos := by decide

theorem u32Size_pos : 0 < u32Size := by decide

/-- The round as a `u32`. -/
def toRound (round : Nat) : Fin u32Size := ⟨round % u32Size, Nat.mod_lt _ u32Size_pos⟩

/-- References to the blocks of a round by these authors. -/
def refsAt (round : Nat) (authors : List AuthorityIndex) : List BlockRef := authors.map fun i => .new round i 0

/-- The second node builds a block on top of its last one and broadcasts it. -/
def buildOn (round : Nat) : List (SimAction 2) :=
  [.buildBlock 1 (toRound round) (refsAt (round - 1) [1]),
    .broadcast 1 (testBlock (fun _ => 0) (toRound round) 1 (refsAt (round - 1) [1]) round)]

/-- The first node is cut off after round 3. -/
def cutOff : List (SimAction 2) :=
  buildOn 1 ++ [.processInbox 0] ++ buildOn 2 ++ buildOn 3 ++ [.partition 0 1, .processInbox 0] ++ buildOn 4 ++
    buildOn 5 ++ [.processInbox 0]

/-- The node that is cut off has not committed what the other has. -/
theorem nodes_agree_cutOff : ∃ s, (new (fun _ => 0) lopsided 2).run (fun _ => 0) cutOff = .ok s ∧
    (hardCommits (s.nodes 0).sent).length = 0 ∧ (hardCommits (s.nodes 1).sent).length = 1 ∧
    hardCommits (s.nodes 0).sent <+: hardCommits (s.nodes 1).sent := by
  obtain ⟨s, hrun, hagree⟩ :=
    nodes_agree (fun _ => 0) lopsided ∅ 2 (by decide) (by decide) cutOff (by decide +kernel)
  have hlengths : ((new (fun _ => 0) lopsided 2).run (fun _ => 0) cutOff).map
      (fun s => ((hardCommits (s.nodes 0).sent).length, (hardCommits (s.nodes 1).sent).length)) = .ok (0, 1) := by
    decide +kernel
  rw [hrun] at hlengths
  obtain ⟨hzero, hone⟩ := Prod.mk.inj (Except.ok.inj hlengths)
  refine ⟨s, hrun, hzero, hone, ?_⟩
  rcases (hagree 0 1).1 with hle | hle
  · exact hle
  · have hlength := hle.length_le
    rw [hzero, hone] at hlength
    cases hlength

end Simulation

end

end DualOptimistic.Consensus
