import DualOptimistic.Consensus.CausalWalk
import DualOptimistic.Consensus.CommitPath

/-! The walks over the DAG are reachability.

On a store whose blocks list ancestors of lower rounds, `ancestors_at_round` is the
round's part of what a block reaches, weak links and several blocks of an author
included (`ancestorsAtRound_reachable`). Where the store is also closed under ancestors, the two walks from a leader, which mark in
different places, a local set and the committed set itself, find the same blocks: what
the leader reaches through uncommitted blocks (`cone_eq_subDag`). -/
namespace DualOptimistic.Consensus
open Data

namespace DagState
variable {dag : DagState}

/-! ### Ancestors at a round -/

/-- **`ancestors_at_round`**, for every block and every lower round, ends and returns
without repeats exactly the stored blocks of the round that the block reaches by one or
more ancestor edges. -/
theorem ancestorsAtRound_reachable (hlower : dag.Descending) (b : VerifiedBlock) (r : Round)
    (hr : r < b.round) :
    ∃ l, dag.ancestorsAtRound b r = .ok l ∧ l.Nodup ∧
      ∀ d, d ∈ l ↔ dag.getBlock d.reference = some d ∧ d.round = r ∧
        Relation.TransGen (Lists dag.getBlock) b d :=
  hlower.ancestorsAtRound_spec b (hr.trans b.block.round_lt)

/-! ### Through uncommitted blocks -/

/-- A step of the history to an uncommitted block. -/
def OpenStep (dag : DagState) (b ancestor : VerifiedBlock) : Prop :=
  Lists dag.getBlock b ancestor ∧ ancestor.reference ∉ dag.committed

theorem Closed.storedLinks_eq (h : dag.Closed) : dag.storedLinks = links dag.getBlock := by
  funext r
  exact List.filter_eq_self.mpr fun a ha => h.links_stored ha

/-- Everything on a path of references from a stored leader is stored, and the blocks
behind them are on the path of blocks. -/
theorem openSteps_of_links {leader : VerifiedBlock}
    (hget : dag.getBlock leader.reference = some leader) {r : BlockRef}
    (hpath : Relation.ReflTransGen (fun a b => b ∈ links dag.getBlock a ∧ b ∉ dag.committed)
      leader.reference r) {b : VerifiedBlock} (hb : dag.getBlock r = some b) :
    Relation.ReflTransGen dag.OpenStep leader b := by
  induction hpath generalizing b with
  | refl =>
    obtain rfl : leader = b := Option.some.inj (hget.symm.trans hb)
    exact .refl
  | @tail x y _ hstep ih =>
    obtain ⟨bx, hx, hlisted, -⟩ := mem_links.mp hstep.1
    refine (ih hx).tail ⟨⟨y, hlisted, hb⟩, ?_⟩
    rw [getBlock_reference hb]
    exact hstep.2

/-- A path of blocks that ends above genesis is a path of references: no block on it is of
round 0, since what it lists is of a lower round. -/
theorem Descending.links_of_openSteps (h : dag.Descending) {leader : VerifiedBlock}
    (hget : dag.getBlock leader.reference = some leader) {b : VerifiedBlock}
    (hpath : Relation.ReflTransGen dag.OpenStep leader b) :
    dag.getBlock b.reference = some b ∧ (0 < b.round →
      Relation.ReflTransGen (fun a b => b ∈ links dag.getBlock a ∧ b ∉ dag.committed)
        leader.reference b.reference) := by
  induction hpath with
  | refl => exact ⟨hget, fun _ => .refl⟩
  | @tail x y _ hstep ih =>
    obtain ⟨⟨r, hr, hy⟩, hopen⟩ := hstep
    obtain rfl : y.reference = r := getBlock_reference hy
    refine ⟨hy, fun hpos => ?_⟩
    have hbelow : y.round < x.round := h _ x ih.1 _ hr
    exact (ih.2 (hpos.trans hbelow)).tail ⟨mem_links.mpr ⟨x, ih.1, hr, hpos⟩, hopen⟩

theorem mem_filterMap_getBlock {refs : List BlockRef} {b : VerifiedBlock} :
    b ∈ refs.filterMap dag.getBlock ↔ dag.getBlock b.reference = some b ∧ b.reference ∈ refs := by
  rw [List.mem_filterMap]
  constructor
  · rintro ⟨r, hr, hb⟩
    obtain rfl : b.reference = r := getBlock_reference hb
    exact ⟨hb, hr⟩
  · rintro ⟨hb, hr⟩
    exact ⟨b.reference, hr, hb⟩

theorem filterMap_getBlock_nodup {refs : List BlockRef} (h : refs.Nodup) :
    (refs.filterMap dag.getBlock).Nodup := by
  apply List.Nodup.filterMap _ h
  intro r r' b hb hb'
  rw [← getBlock_reference hb, ← getBlock_reference hb']

/-- **The read-only cone is the linearized sub-dag.** From a stored, uncommitted leader
above genesis both walks return, with the same blocks and none twice: those above genesis
that the leader, itself included, reaches through uncommitted blocks. The committing walk
marks exactly these, which were not committed before, and changes nothing else. -/
theorem cone_eq_subDag (hclosed : dag.Closed) (hlower : dag.Descending)
    (hdistinct : ∀ r b, dag.getBlock r = some b → b.ancestors.Nodup) {leader : VerifiedBlock}
    (hget : dag.getBlock leader.reference = some leader) (hfresh : leader.reference ∉ dag.committed)
    (hpos : 0 < leader.round) :
    ∃ cone subDag dag', dag.getCausalBlocks leader.reference dag.gcRound = .ok cone ∧
      dag.linearizeSubDag leader = .ok (subDag, dag') ∧
      cone.Nodup ∧ subDag.Nodup ∧ (∀ b, b ∈ subDag ↔ b ∈ cone) ∧
      (∀ b, b ∈ cone ↔ 0 < b.round ∧ Relation.ReflTransGen dag.OpenStep leader b) ∧
      dag' = { dag with committed := dag.committed ∪ (subDag.map VerifiedBlock.reference).toFinset } ∧
      ∀ b ∈ subDag, b.reference ∉ dag.committed := by
  have hd : dag.Distinct := by
    intro r
    cases hb : dag.getBlock r with
    | none =>
      rw [links, hb]
      exact List.nodup_nil
    | some b =>
      rw [links, hb]
      exact (hdistinct r b hb).filter _
  have hstored : dag.containsBlock leader.reference = true := containsBlock_of_getBlock hget
  obtain ⟨visited, seen, hrun, hcommit⟩ := hclosed.linearizeSubDag_eq hd hget hpos hfresh
  obtain ⟨visited', seen', hrun', hread⟩ := getCausalBlocks_eq hstored hfresh
  rw [hclosed.storedLinks_eq, hrun] at hrun'
  obtain ⟨rfl, rfl⟩ := Prod.mk.inj (Option.some.inj hrun')
  obtain ⟨hnodup, hreach, hopen, hseen⟩ := search_spec hfresh hrun
  have hcone := @filterMap_getBlock_nodup dag visited hnodup
  have hperm := sortSubDagBlocks_perm (visited.filterMap dag.getBlock)
  refine ⟨_, _, _, hread, hcommit, hcone, hperm.nodup_iff.mpr hcone, fun b => hperm.mem_iff, fun b => ?_, ?_,
    fun b hb => ?_⟩
  · rw [mem_filterMap_getBlock, hreach]
    constructor
    · intro h
      have hround := (hclosed.visited_stored hstored hpos hfresh hrun ((hreach _).mpr h.2)).2
      exact ⟨hround, openSteps_of_links hget h.2 h.1⟩
    · intro h
      obtain ⟨hb, hlinks⟩ := hlower.links_of_openSteps hget h.2
      exact ⟨hb, hlinks h.1⟩
  · rw [hseen]
    congr 2
    ext r
    rw [List.mem_toFinset, List.mem_toFinset, (hperm.map _).mem_iff, List.mem_map]
    constructor
    · intro hr
      obtain ⟨b, hb⟩ := containsBlock_iff.mp (hclosed.visited_stored hstored hpos hfresh hrun hr).1
      have href : b.reference = r := getBlock_reference hb
      exact ⟨b, mem_filterMap_getBlock.mpr ⟨href ▸ hb, href ▸ hr⟩, href⟩
    · rintro ⟨b, hb, rfl⟩
      exact (mem_filterMap_getBlock.mp hb).2
  · exact hopen _ (mem_filterMap_getBlock.mp (hperm.mem_iff.mp hb)).2

/-! ### A diamond -/

/-- What holds of every stored block and of every block accepted holds of every block
stored afterwards. -/
theorem forall_acceptBlocks {P : VerifiedBlock → Prop} (h : ∀ r b, dag.getBlock r = some b → P b)
    {l : List VerifiedBlock} (hl : ∀ b ∈ l, P b) : ∀ r b, (dag.acceptBlocks l).getBlock r = some b → P b := by
  induction l generalizing dag with
  | nil => exact h
  | cons x rest ih =>
    apply ih _ fun b hb => hl b (List.mem_cons_of_mem _ hb)
    intro r b hb
    rw [getBlock_acceptBlock] at hb
    split_ifs at hb
    · exact Option.some.inj hb ▸ hl x (List.mem_cons_self ..)
    · exact h r b hb

theorem new_ancestors {sha3 : List UInt8 → BlockDigest} {c : Committee} (r : BlockRef) (b : VerifiedBlock)
    (h : (new sha3 c).getBlock r = some b) : b.ancestors = [] := by
  obtain ⟨i, -, rfl⟩ := List.mem_map.mp (@mem_genesisBlocks sha3 c _ _ h)
  rfl

/-- Two blocks of round 1, two of round 2 over them, and one of round 3 that also links
back to round 1. -/
def diamondBlocks : List VerifiedBlock :=
  [plainBlock 1 0 [], plainBlock 1 1 [], plainBlock 2 0 [.new 1 0 0, .new 1 1 0],
    plainBlock 2 1 [.new 1 0 0], plainBlock 3 3 [.new 2 0 0, .new 2 1 0, .new 1 1 0]]

/-- The diamond with one block of round 1 committed. -/
def diamond : DagState :=
  { (new (fun _ => 0) fourAuthorities).acceptBlocks diamondBlocks with committed := {.new 1 1 0} }

theorem diamond_closed : diamond.Closed :=
  (closed_new (fun _ => 0) fourAuthorities).acceptBlocks (by decide +kernel)

theorem diamond_descending : diamond.Descending :=
  @forall_acceptBlocks (new (fun _ => 0) fourAuthorities)
    (fun b => ∀ a ∈ b.ancestors, a.round < b.round) (fun r b hb => by simp [new_ancestors r b hb])
    diamondBlocks (by decide)

theorem diamond_distinct : ∀ r b, diamond.getBlock r = some b → b.ancestors.Nodup :=
  @forall_acceptBlocks (new (fun _ => 0) fourAuthorities) (fun b => b.ancestors.Nodup)
    (fun r b hb => by simp [new_ancestors r b hb]) diamondBlocks (by decide)

theorem diamond_ancestorsAtRound :
    let top := plainBlock 3 3 [.new 2 0 0, .new 2 1 0, .new 1 1 0]
    1 < top.round ∧ diamond.ancestorsAtRound top 1 = .ok [plainBlock 1 0 [], plainBlock 1 1 []] ∧
      Relation.TransGen (Lists diamond.getBlock) top (plainBlock 1 0 []) := by
  intro top
  have hround : 1 < top.round := by decide
  obtain ⟨l, hl, -, hmem⟩ := ancestorsAtRound_reachable diamond_descending top 1 hround
  have heq : diamond.ancestorsAtRound top 1 = .ok [plainBlock 1 0 [], plainBlock 1 1 []] := by decide +kernel
  obtain rfl : [plainBlock 1 0 [], plainBlock 1 1 []] = l := Except.ok.inj (heq.symm.trans hl)
  exact ⟨hround, heq, ((hmem _).mp (List.mem_cons_self ..)).2.2⟩

theorem diamond_cone :
    let top := plainBlock 3 3 [.new 2 0 0, .new 2 1 0, .new 1 1 0]
    ∃ cone subDag dag', diamond.getCausalBlocks top.reference diamond.gcRound = .ok cone ∧
      diamond.linearizeSubDag top = .ok (subDag, dag') ∧ cone.length = 4 ∧ ∀ b, b ∈ subDag ↔ b ∈ cone := by
  intro top
  obtain ⟨cone, subDag, dag', hread, hcommit, -, -, hsame, -⟩ :=
    cone_eq_subDag diamond_closed diamond_descending diamond_distinct (show _ = some top by decide +kernel)
      (by decide) (by decide)
  have hlength : (diamond.getCausalBlocks top.reference diamond.gcRound).map List.length = .ok 4 := by
    decide +kernel
  rw [hread] at hlength
  exact ⟨cone, subDag, dag', hread, hcommit, Except.ok.inj hlength, hsame⟩

end DagState

end DualOptimistic.Consensus
