import DualOptimistic.Consensus.Simulation
import DualOptimistic.Consensus.Liveness

/-! A simulated network without partitions.

A broadcast then reaches everybody but the sender, who has the block. So if blocks list broadcast
blocks only, whatever a block lists is in every history when the block is broadcast (`Open`): the
inboxes are in causal order by themselves, and nodes that have emptied them have committed the
same (`nodes_converge`). -/
namespace DualOptimistic.Consensus
open Data

section
variable {sha3 : List UInt8 → BlockDigest} {c : Committee}

namespace Simulation
variable {n : Nat}

/-- What the driver keeps to when nobody is cut off: blocks are proper and list blocks that their
author has taken and that were broadcast, and a sender has taken what it broadcasts. -/
def PermitsOpen (sha3 : List UInt8 → BlockDigest) (c : Committee) (byzantine : Finset AuthorityIndex)
    (s : Simulation n) : SimAction n → Prop
  | .buildBlock i round ancestors =>
    Proper c byzantine s.built ((s.nodes i).proposal sha3 round ancestors) ∧
      ∀ a ∈ ancestors, 0 < a.round → ∃ x ∈ (s.nodes i).taken, x ∈ s.broadcasts ∧ x.reference = a
  | .broadcast sender block => block ∈ (s.nodes sender).taken
  | .processInbox _ | .heal .. => True
  | .partition .. => False

instance (sha3 : List UInt8 → BlockDigest) (c : Committee) (byzantine : Finset AuthorityIndex) (s : Simulation n) :
    (action : SimAction n) → Decidable (s.PermitsOpen sha3 c byzantine action)
  | .buildBlock .. => inferInstanceAs (Decidable (_ ∧ ∀ a ∈ _, _ → ∃ x ∈ _, _))
  | .broadcast .. => inferInstanceAs (Decidable (_ ∈ _))
  | .processInbox _ | .heal .. => inferInstanceAs (Decidable True)
  | .partition .. => inferInstanceAs (Decidable False)

/-- Nobody is cut off: what was broadcast has reached everybody, and what blocks list was broadcast. -/
structure Open (sha3 : List UInt8 → BlockDigest) (c : Committee) (byzantine : Finset AuthorityIndex)
    (s : Simulation n) : Prop where
  consistent : s.Consistent sha3 c byzantine
  connected : s.partitioned = ∅
  reached : ∀ b ∈ s.broadcasts, ∀ i, b ∈ (s.nodes i).history
  listed : ∀ b ∈ s.built, ∀ a ∈ b.ancestors, 0 < a.round → a ∈ s.broadcasts.map VerifiedBlock.reference

theorem open_new (sha3 : List UInt8 → BlockDigest) (c : Committee) (byzantine : Finset AuthorityIndex) (n : Nat) :
    (new sha3 c n).Open sha3 c byzantine where
  consistent := consistent_new sha3 c byzantine n
  connected := rfl
  reached _ hb := absurd hb List.not_mem_nil
  listed b hb := by simp [mem_built, new, SimulatedNode.new] at hb

namespace Open
variable {byzantine : Finset AuthorityIndex} {s : Simulation n}

/-- One node takes more blocks, which list broadcast blocks. -/
theorem setNode (h : s.Open sha3 c byzantine) {i : Fin n} {next : SimulatedNode}
    (hconsistent : (s.setNode i next).Consistent sha3 c byzantine)
    (hhistory : (s.nodes i).history ⊆ next.history)
    (hlisted : ∀ b ∈ next.taken, b ∈ s.built ∨
      ∀ a ∈ b.ancestors, 0 < a.round → a ∈ s.broadcasts.map VerifiedBlock.reference) :
    (s.setNode i next).Open sha3 c byzantine where
  consistent := hconsistent
  connected := h.connected
  reached b hb j := by
    have hj := h.reached b hb j
    by_cases hji : j = i
    · subst hji
      simpa [Simulation.setNode] using hhistory hj
    · simpa [Simulation.setNode, hji] using hj
  listed b hb := by
    rcases mem_built_setNode hb with hb | hb
    · rcases hlisted b hb with hb | hb
      · exact h.listed b hb
      · exact hb
    · exact h.listed b hb

/-- Everybody has what a block that was built lists. -/
theorem ancestors (h : s.Open sha3 c byzantine) {b : VerifiedBlock} (hb : b ∈ s.built) {a : BlockRef}
    (ha : a ∈ b.ancestors) (hpos : 0 < a.round) (i : Fin n) :
    a ∈ (s.nodes i).history.map VerifiedBlock.reference := by
  obtain ⟨x, hx, rfl⟩ := List.mem_map.mp (h.listed b hb a ha hpos)
  exact List.mem_map_of_mem (h.reached x hx i)

/-- A broadcast reaches everybody but the sender, who has the block. -/
theorem broadcast (h : s.Open sha3 c byzantine) {sender : Fin n} {block : VerifiedBlock}
    (hblock : block ∈ (s.nodes sender).taken) : (s.broadcast sender block).Open sha3 c byzantine where
  consistent :=
    h.consistent.broadcast hblock fun i _ a ha hpos => h.ancestors (mem_built.mpr ⟨sender, hblock⟩) ha hpos i
  connected := h.connected
  reached b hb i := by
    rw [history_broadcast]
    rcases List.mem_append.mp hb with hb | hb
    · split
      · exact List.mem_append_left _ (h.reached b hb i)
      · exact h.reached b hb i
    · rw [List.mem_singleton.mp hb]
      split
      · exact List.mem_append_right _ (List.mem_singleton_self _)
      · next hnot =>
        have hi : i = sender := by
          by_contra hne
          exact hnot ⟨hne, by simp [h.connected]⟩
        rw [hi]
        exact List.mem_append_left _ hblock
  listed b hb a ha hpos := by
    rw [Simulation.broadcast, List.map_append]
    exact List.mem_append_left _ (h.listed b hb a ha hpos)

/-- **One call** that the rule permits. -/
theorem step (hn : n ≤ c.size) (hfaults : c.quorums.total byzantine ≤ c.faultTolerance)
    (h : s.Open sha3 c byzantine) {action : SimAction n} (hpermits : s.PermitsOpen sha3 c byzantine action) :
    ∃ next, s.step sha3 action = .ok next ∧ next.Open sha3 c byzantine := by
  cases action with
  | buildBlock i round ancestors =>
    obtain ⟨hproper, hlisted⟩ := hpermits
    obtain ⟨next, hstep, htaken, hinbox, hnext⟩ := h.consistent.buildBlock hn hfaults hproper fun a ha hpos => by
      obtain ⟨x, hx, -, rfl⟩ := hlisted a ha hpos
      exact List.mem_map_of_mem hx
    refine ⟨_, hstep, h.setNode hnext (fun b hb => ?_) fun b hb => ?_⟩
    · rw [SimulatedNode.history, htaken, hinbox]
      rcases List.mem_append.mp hb with hb | hb
      · exact List.mem_append_left _ (List.mem_append_left _ hb)
      · exact List.mem_append_right _ hb
    · rw [htaken] at hb
      rcases List.mem_append.mp hb with hb | hb
      · exact .inl (mem_built.mpr ⟨i, hb⟩)
      · right
        rw [List.mem_singleton.mp hb]
        intro a ha hpos
        obtain ⟨x, -, hx, rfl⟩ := hlisted a (mem_testBlock_ancestors.mp ha) hpos
        exact List.mem_map_of_mem hx
  | broadcast sender block => exact ⟨_, rfl, h.broadcast hpermits⟩
  | processInbox i =>
    obtain ⟨next, hstep, htaken, hinbox, hnext⟩ := h.consistent.processInbox hfaults i
    refine ⟨_, hstep, h.setNode hnext (fun b hb => ?_) fun b hb => ?_⟩
    · rw [SimulatedNode.history, htaken, hinbox, List.append_nil]
      exact hb
    · rw [htaken] at hb
      exact .inl (h.consistent.history_built hb)
  | partition a b => exact hpermits.elim
  | heal a b =>
    refine ⟨_, rfl, ⟨h.consistent.index, h.consistent.ran, h.consistent.causal, h.consistent.waiting,
      h.consistent.proposals⟩, ?_, h.reached, h.listed⟩
    simp [Simulation.heal, h.connected]

end Open

/-- A node that has taken all blocks commits every supported wave. -/
theorem Consistent.commits {byzantine : Finset AuthorityIndex} {s : Simulation n}
    (hfaults : c.quorums.total byzantine ≤ c.faultTolerance) (h : s.Consistent sha3 c byzantine) {i : Fin n}
    (hall : ∀ b ∈ s.built, b ∈ (s.nodes i).taken) {leader : WaveNumber → VerifiedBlock} {W : WaveNumber}
    (hsupported : Supported c s.built leader W) :
    (List.range' 1 W).map (fun w => ((leader w).reference, w)) <+:
      (hardCommits (s.nodes i).sent).map fun s => (s.leader, s.commitIndex) := by
  have hmem : ∀ b, b ∈ s.built ↔ b ∈ ((s.nodes i).taken.map ([·])).flatten := by
    intro b
    rw [flatten_singletons]
    exact ⟨hall b, fun hb => mem_built.mpr ⟨i, hb⟩⟩
  obtain ⟨-, -, -, -, -, hcommits, -⟩ := (hsupported.congr hmem).run (h.proposals.toUniverse_distinct hfaults)
    (h.proposals.toUniverse_parents hfaults) (h.fed hfaults i) (h.order i)
  rwa [(h.ran i).sent] at hcommits

/-- Every block was broadcast, and every inbox is empty. -/
def Quiet (s : Simulation n) : Prop := ∀ i, (s.nodes i).inbox = [] ∧ ∀ b ∈ (s.nodes i).taken, b ∈ s.broadcasts

instance (s : Simulation n) : Decidable s.Quiet := inferInstanceAs (Decidable (∀ _, _ ∧ ∀ b ∈ _, _))

/-- When all is quiet, everybody has taken everything. -/
theorem Open.taken {byzantine : Finset AuthorityIndex} {s : Simulation n} (h : s.Open sha3 c byzantine)
    (hquiet : s.Quiet) (i : Fin n) : ∀ b ∈ s.built, b ∈ (s.nodes i).taken := by
  intro b hb
  obtain ⟨j, hj⟩ := mem_built.mp hb
  have hreached := h.reached b ((hquiet j).2 b hj) i
  rwa [SimulatedNode.history, (hquiet i).1, List.append_nil] at hreached

/-- **Nodes converge.** With nobody cut off, blocks that list broadcast blocks reach every node
after what they list, in whatever order nodes build, broadcast and empty their inboxes. No engine
panics, and of the final commits of two nodes one is a first part of the other. Once every block
was broadcast and every inbox is empty, all nodes have committed the same, and every wave whose
leader is supported. -/
theorem nodes_converge (sha3 : List UInt8 → BlockDigest) (c : Committee) (byzantine : Finset AuthorityIndex) (n : Nat)
    (hn : n ≤ c.size) (hfaults : c.quorums.total byzantine ≤ c.faultTolerance) (actions : List (SimAction n))
    (hrule : Along (advance sha3) (Running (PermitsOpen sha3 c byzantine)) (.ok (new sha3 c n)) actions) :
    ∃ s, (new sha3 c n).run sha3 actions = .ok s ∧
      (∀ i j, hardCommits (s.nodes i).sent <+: hardCommits (s.nodes j).sent ∨
        hardCommits (s.nodes j).sent <+: hardCommits (s.nodes i).sent) ∧
      (s.Quiet → (∀ i j, hardCommits (s.nodes i).sent = hardCommits (s.nodes j).sent) ∧
        ∀ leader W, Supported c s.built leader W → ∀ i,
          (List.range' 1 W).map (fun w => ((leader w).reference, w)) <+:
            (hardCommits (s.nodes i).sent).map fun s => (s.leader, s.commitIndex)) := by
  obtain ⟨s, hrun, hs⟩ := run_keeps (fun h hpermits => Open.step hn hfaults h hpermits)
    (open_new sha3 c byzantine n) hrule
  refine ⟨s, hrun, fun i j => (hs.consistent.agree hfaults i j).1, fun hquiet => ⟨fun i j => ?_, ?_⟩⟩
  · refine (hs.consistent.agree hfaults i j).2 fun b => ⟨fun hb => ?_, fun hb => ?_⟩
    · exact hs.taken hquiet j b (mem_built.mpr ⟨i, hb⟩)
    · exact hs.taken hquiet i b (mem_built.mpr ⟨j, hb⟩)
  · intro leader W hsupported i
    exact hs.consistent.commits hfaults (hs.taken hquiet i) hsupported

/-- Each of four nodes builds a block on all of the round before and broadcasts it; then all
inboxes are emptied. -/
def fullRound (round : Nat) : List (SimAction 4) :=
  let ancestors := refsAt (round - 1) [0, 1, 2, 3]
  (List.finRange 4).flatMap (fun i =>
    [.buildBlock i (toRound round) ancestors,
      .broadcast i (testBlock (fun _ => 0) (toRound round) i ancestors round)]) ++
    (List.finRange 4).map .processInbox

def fiveRounds : List (SimAction 4) := [1, 2, 3, 4, 5].flatMap fullRound

/-- After five full rounds all four nodes have committed the leader of round 3. -/
theorem nodes_converge_fiveRounds : ∃ s, (new (fun _ => 0) fourAuthorities 4).run (fun _ => 0) fiveRounds = .ok s ∧
    (hardCommits (s.nodes 0).sent).map OurCommittedSubDag.leader = [.new 3 3 0] ∧
    ∀ i j, hardCommits (s.nodes i).sent = hardCommits (s.nodes j).sent := by
  obtain ⟨s, hrun, -, hconverge⟩ :=
    nodes_converge (fun _ => 0) fourAuthorities ∅ 4 (by decide) (by decide) fiveRounds (by decide +kernel)
  have hend : ((new (fun _ => 0) fourAuthorities 4).run (fun _ => 0) fiveRounds).map (fun s =>
      ((hardCommits (s.nodes 0).sent).map OurCommittedSubDag.leader, decide s.Quiet)) = .ok ([.new 3 3 0], true) := by
    decide +kernel
  rw [hrun] at hend
  obtain ⟨hleader, hquiet⟩ := Prod.mk.inj (Except.ok.inj hend)
  exact ⟨s, hrun, hleader, (hconverge (of_decide_eq_true hquiet)).1⟩

end Simulation

end

end DualOptimistic.Consensus
