import DualOptimistic.Consensus.CommitterSpec
import DualOptimistic.Consensus.Linearizer

/-! What the linearizer collects.

On a closed store whose blocks list no reference above genesis twice, the walk of `linearize_sub_dag` is
the depth-first search from the leader with the committed references as marks
(`linearizeLoop_eq`): its assertions hold, its fuel is enough, and the leader takes with
it what it reaches through uncommitted blocks above genesis. -/
namespace DualOptimistic.Consensus
open Data

/-- The references above genesis that the block behind `r` lists. -/
def links (block : BlockRef → Option VerifiedBlock) (r : BlockRef) : List BlockRef :=
  match block r with
  | some b => b.ancestors.filter fun a => decide (0 < a.round)
  | none => []

theorem mem_links {block : BlockRef → Option VerifiedBlock} {r a : BlockRef} :
    a ∈ links block r ↔ ∃ b, block r = some b ∧ a ∈ b.ancestors ∧ 0 < a.round := by
  unfold links
  cases block r with
  | none => simp
  | some b => simp

namespace DagState

/-- No stored block lists a reference above genesis twice. -/
def Distinct (dag : DagState) : Prop := ∀ r, (links dag.getBlock r).Nodup

variable {dag : DagState}

/-! ### The walk -/

theorem fetchBlocks_eq {refs : List BlockRef} (h : ∀ r ∈ refs, dag.containsBlock r = true) :
    dag.fetchBlocks refs = .ok (refs.filterMap dag.getBlock) := by
  induction refs with
  | nil => rfl
  | cons r rest ih =>
    obtain ⟨b, hb⟩ := containsBlock_iff.mp (h r (List.mem_cons_self ..))
    rw [fetchBlocks, ih fun x hx => h x (List.mem_cons_of_mem _ hx), hb, List.filterMap_cons_some hb]
    rfl

/-- Pushing distinct uncommitted references marks them, and no assertion fails. -/
theorem pushCommitted_eq {refs : List BlockRef} (hstored : ∀ r ∈ refs, dag.containsBlock r = true)
    (hnodup : refs.Nodup) {C : Finset BlockRef} (hfresh : ∀ r ∈ refs, r ∉ C) {stack : List BlockRef}
    (hstack : ∀ r ∈ stack, dag.containsBlock r = true) :
    pushCommitted { dag with committed := C } (refs.filterMap dag.getBlock) (stack.filterMap dag.getBlock) =
      .ok ({ dag with committed := (push C stack refs).1 },
        (push C stack refs).2.filterMap dag.getBlock) := by
  induction refs generalizing C stack with
  | nil => rfl
  | cons r rest ih =>
    obtain ⟨b, hb⟩ := containsBlock_iff.mp (hstored r (List.mem_cons_self ..))
    have href : b.reference = r := getBlock_reference hb
    have hr : r ∉ C := hfresh r (List.mem_cons_self ..)
    rw [List.nodup_cons] at hnodup
    have hnew : (setCommitted { dag with committed := C } b.reference).1 = true := by
      show (!decide (b.reference ∈ C)) = true
      rw [href, decide_eq_false hr]
      rfl
    have hcons : b :: stack.filterMap dag.getBlock = (r :: stack).filterMap dag.getBlock := by
      rw [List.filterMap_cons_some hb]
    rw [List.filterMap_cons_some hb, pushCommitted, if_pos hnew, push, if_neg hr, hcons]
    show pushCommitted { dag with committed := insert b.reference C } _ _ = _
    rw [href]
    refine ih (fun x hx => hstored x (List.mem_cons_of_mem _ hx)) hnodup.2 (fun x hx => ?_) (fun x hx => ?_)
    · intro hmem
      rcases Finset.mem_insert.mp hmem with rfl | hmem
      · exact hnodup.1 hx
      · exact hfresh x (List.mem_cons_of_mem _ hx) hmem
    · rcases List.mem_cons.mp hx with rfl | hx
      · exact hstored _ (List.mem_cons_self ..)
      · exact hstack x hx

theorem Closed.links_stored (h : dag.Closed) {r a : BlockRef} (ha : a ∈ links dag.getBlock r) :
    dag.containsBlock a = true := by
  obtain ⟨b, hb, hmem, hpos⟩ := mem_links.mp ha
  exact h r b hb a hmem hpos

/-- **The walk** of `linearize_sub_dag` is the search. -/
theorem linearizeLoop_eq (h : dag.Closed) (hd : dag.Distinct) {n : Nat} {C : Finset BlockRef}
    {stack : List BlockRef} (hstack : ∀ r ∈ stack, dag.containsBlock r = true) :
    linearizeLoop n { dag with committed := C } (stack.filterMap dag.getBlock) =
      match search (links dag.getBlock) n C stack with
      | none => .error .outOfFuel
      | some (visited, seen) => .ok (visited.filterMap dag.getBlock, { dag with committed := seen }) := by
  induction n generalizing C stack with
  | zero =>
    cases stack with
    | nil => rfl
    | cons r rest =>
      obtain ⟨b, hb⟩ := containsBlock_iff.mp (hstack r (List.mem_cons_self ..))
      rw [List.filterMap_cons_some hb]
      rfl
  | succ n ih =>
    cases stack with
    | nil => rfl
    | cons r rest =>
      obtain ⟨b, hb⟩ := containsBlock_iff.mp (hstack r (List.mem_cons_self ..))
      have hrest : ∀ x ∈ rest, dag.containsBlock x = true := fun x hx => hstack x (List.mem_cons_of_mem _ hx)
      have hlinks : links dag.getBlock r = b.ancestors.filter fun a => decide (0 < a.round) := by
        rw [links, hb]
      have hopen : openAncestors { dag with committed := C } b =
          (links dag.getBlock r).filter fun a => decide (a ∉ C) := by
        rw [hlinks, List.filter_filter]
        refine List.filter_congr fun a _ => ?_
        show (decide (0 < a.round) && !decide (a ∈ C)) = _
        rw [Bool.and_comm, decide_not]
      have hstored : ∀ x ∈ (links dag.getBlock r).filter (fun a => decide (a ∉ C)),
          dag.containsBlock x = true := fun x hx => h.links_stored (List.mem_filter.mp hx).1
      have hpush := pushCommitted_eq hstored ((hd r).filter _)
        (fun x hx => of_decide_eq_true (List.mem_filter.mp hx).2) hrest
      rw [push_filter (Finset.Subset.refl C)] at hpush
      have hnext : ∀ x ∈ (push C rest (links dag.getBlock r)).2, dag.containsBlock x = true := by
        intro x hx
        rcases mem_push_stack.mp hx with hx | ⟨hx, -⟩
        · exact hrest x hx
        · exact h.links_stored hx
      have hfetch : fetchBlocks { dag with committed := C }
          ((links dag.getBlock r).filter fun a => decide (a ∉ C)) =
          .ok (((links dag.getBlock r).filter fun a => decide (a ∉ C)).filterMap dag.getBlock) :=
        fetchBlocks_eq hstored
      rw [List.filterMap_cons_some hb, linearizeLoop, hopen, hfetch, except_ok_bind, hpush, except_ok_bind, search]
      dsimp only
      rw [ih hnext]
      cases search (links dag.getBlock) n (push C rest (links dag.getBlock r)).1
          (push C rest (links dag.getBlock r)).2 with
      | none => rfl
      | some found =>
        simp only [Option.map_some, List.filterMap_cons_some hb]
        rfl

/-- Every walk among stored references has enough fuel. -/
theorem search_of_stored {next : BlockRef → List BlockRef}
    (hnext : ∀ r, ∀ a ∈ next r, dag.containsBlock a = true) {root : BlockRef}
    (hroot : dag.containsBlock root = true) (C : Finset BlockRef) :
    ∃ found, search next dag.walkFuel (insert root C) [root] = some found := by
  let K := (dag.blocks.map.keys ++ dag.genesis.map.keys).toFinset
  have hmem : ∀ r, dag.containsBlock r = true → r ∈ K := by
    intro r hr
    rw [List.mem_toFinset, List.mem_append, ← OrdMap.contains_iff_mem_keys, ← OrdMap.contains_iff_mem_keys]
    exact Bool.or_eq_true_iff.mp hr
  have hcard : (K \ insert root C).card + [root].length ≤ dag.walkFuel := by
    have hsub : (K \ insert root C).card ≤ K.card := Finset.card_le_card Finset.sdiff_subset
    have hle : K.card ≤ dag.blocks.map.size + dag.genesis.map.size := by
      have := List.toFinset_card_le (dag.blocks.map.keys ++ dag.genesis.map.keys)
      rwa [List.length_append, OrdMap.keys, OrdMap.keys, List.length_map, List.length_map] at this
    show (K \ insert root C).card + 1 ≤ dag.blocks.map.size + dag.genesis.map.size + 1
    omega
  refine search_terminates (fun x _ y hy => hmem y (hnext x y hy)) (fun y hy => ?_) hcard
  rw [List.mem_singleton.mp hy]
  exact hmem root hroot

/-- The walk visits stored references once, so its fuel is enough. -/
theorem Closed.walk_terminates (h : dag.Closed) {root : BlockRef} (hroot : dag.containsBlock root = true)
    (C : Finset BlockRef) :
    ∃ found, search (links dag.getBlock) dag.walkFuel (insert root C) [root] = some found :=
  search_of_stored (fun _ _ ha => h.links_stored ha) hroot C

/-- What the search finds is stored and above genesis. -/
theorem Closed.visited_stored (h : dag.Closed) {root : BlockRef} (hroot : dag.containsBlock root = true)
    (hpos : 0 < root.round) {C : Finset BlockRef} (hfresh : root ∉ C) {n : Nat} {visited : List BlockRef}
    {seen : Finset BlockRef}
    (hrun : search (links dag.getBlock) n (insert root C) [root] = some (visited, seen)) {r : BlockRef}
    (hr : r ∈ visited) : dag.containsBlock r = true ∧ 0 < r.round := by
  obtain ⟨-, hreach, -, -⟩ := search_spec hfresh hrun
  rcases Relation.ReflTransGen.cases_tail ((hreach r).mp hr) with rfl | ⟨x, -, hlink, -⟩
  · exact ⟨hroot, hpos⟩
  · obtain ⟨b, -, -, hround⟩ := mem_links.mp hlink
    exact ⟨h.links_stored hlink, hround⟩

/-- **`linearize_sub_dag`** collects what the leader reaches through uncommitted blocks. -/
theorem Closed.linearizeSubDag_eq (h : dag.Closed) (hd : dag.Distinct) {leader : VerifiedBlock}
    (hget : dag.getBlock leader.reference = some leader) (hpos : 0 < leader.round)
    (hfresh : leader.reference ∉ dag.committed) :
    ∃ visited seen, search (links dag.getBlock) dag.walkFuel
        (insert leader.reference dag.committed) [leader.reference] = some (visited, seen) ∧
      dag.linearizeSubDag leader =
        .ok (sortSubDagBlocks (visited.filterMap dag.getBlock), { dag with committed := seen }) := by
  have hstored : dag.containsBlock leader.reference = true := containsBlock_of_getBlock hget
  obtain ⟨⟨visited, seen⟩, hrun⟩ := h.walk_terminates hstored dag.committed
  refine ⟨visited, seen, hrun, ?_⟩
  have hnew : (dag.setCommitted leader.reference).1 = true := by
    show (!decide (leader.reference ∈ dag.committed)) = true
    rw [decide_eq_false hfresh]
    rfl
  have hwalk : linearizeLoop dag.walkFuel (dag.setCommitted leader.reference).2 [leader] =
      .ok (visited.filterMap dag.getBlock, { dag with committed := seen }) := by
    have hloop := @linearizeLoop_eq dag h hd dag.walkFuel (insert leader.reference dag.committed)
      [leader.reference] fun r hr => List.mem_singleton.mp hr ▸ hstored
    rw [hrun, List.filterMap_cons_some hget] at hloop
    exact hloop
  have habove : ((visited.filterMap dag.getBlock).all fun b => decide (0 < b.round)) = true := by
    rw [List.all_eq_true]
    intro b hb
    obtain ⟨r, hr, hbr⟩ := List.mem_filterMap.mp hb
    have hround := (h.visited_stored hstored hpos hfresh hrun hr).2
    rw [← getBlock_reference hbr] at hround
    exact decide_eq_true hround
  rw [linearizeSubDag, if_pos hnew, hwalk]
  show (if ((visited.filterMap dag.getBlock).all fun b => decide (0 < b.round)) = true then _ else _) = _
  rw [if_pos habove]
  rfl

end DagState

/-! ### Sorting -/

instance sortOrder_total : Std.Total fun a b : VerifiedBlock =>
    a.round < b.round ∨ a.round = b.round ∧ a.author ≤ b.author where
  total a b := by
    rcases Nat.lt_trichotomy a.round b.round with hlt | heq | hlt
    · exact .inl (.inl hlt)
    · rcases Nat.le_total a.author b.author with hle | hle
      · exact .inl (.inr ⟨heq, hle⟩)
      · exact .inr (.inr ⟨heq.symm, hle⟩)
    · exact .inr (.inl hlt)

instance sortOrder_trans : IsTrans VerifiedBlock fun a b =>
    a.round < b.round ∨ a.round = b.round ∧ a.author ≤ b.author where
  trans a b c hab hbc := by
    rcases hab with hab | ⟨hab, hab'⟩
    · rcases hbc with hbc | ⟨hbc, -⟩
      · exact .inl (hab.trans hbc)
      · exact .inl (hbc ▸ hab)
    · rcases hbc with hbc | ⟨hbc, hbc'⟩
      · exact .inl (hab ▸ hbc)
      · exact .inr ⟨hab.trans hbc, hab'.trans hbc'⟩

theorem sortSubDagBlocks_perm (l : List VerifiedBlock) : (sortSubDagBlocks l).Perm l :=
  List.perm_insertionSort _ l

/-- In a sorted sub-dag rounds never fall. -/
theorem sortSubDagBlocks_rounds (l : List VerifiedBlock) :
    (sortSubDagBlocks l).Pairwise fun a b => a.round ≤ b.round := by
  refine List.Pairwise.imp ?_ (List.pairwise_insertionSort _ l)
  intro a b hab
  rcases hab with hlt | ⟨heq, -⟩
  · exact hlt.le
  · exact heq.le

end DualOptimistic.Consensus
