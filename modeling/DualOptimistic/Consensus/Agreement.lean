import DualOptimistic.Consensus.Ledger

/-! Agreement on the hard-commit stream.

Two nodes fed from one universe, whatever each has seen and in whatever order, decide the
waves alike: their views share one wave rule. The stream of sub-dags is a function of the
verdicts, so it agrees too; and a view is only the set of stored blocks, so nodes that
have seen the same blocks have decided and committed the same (`run_agreement`). -/
namespace DualOptimistic.Consensus
open Data

variable {sha3 : List UInt8 → BlockDigest}

/-- Lists that agree where both go on are prefixes of each other. -/
theorem prefix_or_prefix {α : Type} {l m : List α}
    (h : ∀ (i : Nat) x y, l[i]? = some x → m[i]? = some y → x = y) : l <+: m ∨ m <+: l := by
  induction l generalizing m with
  | nil => exact .inl List.nil_prefix
  | cons x l ih =>
    cases m with
    | nil => exact .inr List.nil_prefix
    | cons y m =>
      obtain rfl : x = y := h 0 x y rfl rfl
      rcases ih fun i => h (i + 1) with hpre | hpre
      · exact .inl (List.cons_prefix_cons.mpr ⟨rfl, hpre⟩)
      · exact .inr (List.cons_prefix_cons.mpr ⟨rfl, hpre⟩)

theorem label_isPrefix {c : Committee} {w : WaveNumber} {l m : List (Option (Option VerifiedBlock))}
    (h : l <+: m) : label c w l <+: label c w m := by
  obtain ⟨rest, rfl⟩ := h
  rw [label_append]
  exact List.prefix_append ..

namespace Reached
variable {c : Committee} {U : Universe c} {s s' : HardState} {verdicts verdicts' : List (Option VerifiedBlock)}
  {subDags subDags' : List CommittedSubDag}

/-- What both have decided, they have decided alike. -/
theorem verdicts_isPrefix (hclosed : U.Closed) (hparents : U.QuorumParents)
    (h : Reached sha3 U s verdicts subDags) (h' : Reached sha3 U s' verdicts' subDags') :
    verdicts <+: verdicts' ∨ verdicts' <+: verdicts := by
  refine prefix_or_prefix fun i v v' hv hv' => ?_
  exact ((h.settled hclosed hparents).1 i v hv).agree ((h'.settled hclosed hparents).1 i v' hv')

/-- The verdicts determine the sub-dags. -/
theorem subDags_isPrefix (h : Reached sha3 U s verdicts subDags) (h' : Reached sha3 U s' verdicts' subDags')
    (hpre : verdicts <+: verdicts') : subDags <+: subDags' :=
  h.commits.isPrefix h'.commits (hpre.filterMap id)

/-- A node that stores at least as much has decided at least as much. -/
theorem length_le (hclosed : U.Closed) (hparents : U.QuorumParents)
    (h : Reached sha3 U s verdicts subDags) (h' : Reached sha3 U s' verdicts' subDags')
    (hsub : ∀ b, s.dag.Stores b → s'.dag.Stores b) : verdicts.length ≤ verdicts'.length := by
  by_contra hlt
  have hget : verdicts[verdicts'.length]? = some verdicts[verdicts'.length] :=
    List.getElem?_eq_getElem (Nat.lt_of_not_le hlt)
  -- the wave it stopped at would be decided by the other's blocks, hence by its own
  have hdec := (h.settled hclosed hparents).1 _ _ hget
  exact (h'.settled hclosed hparents).2 _ (Universe.view_mono hsub hdec)

end Reached

open Classical in
/-- **Agreement and order-independence.** Two nodes, each fed blocks of one universe in
causal order and in any batching, run without a panic. Their sequences of decided leaders
are prefix-comparable, and so are their streams of sub-dags; fed the same blocks, they end
up with the same decisions and the same sub-dags. -/
theorem run_agreement (sha3 : List UInt8 → BlockDigest) {c : Committee} (U : Universe c)
    (hdistinct : U.Distinct) (hparents : U.QuorumParents) {batches batches' : List (List VerifiedBlock)}
    (hfed : ∀ b ∈ batches.flatten, U.Has b) (hfed' : ∀ b ∈ batches'.flatten, U.Has b)
    (hcausal : (DagState.new sha3 c).CausalOrder batches.flatten)
    (hcausal' : (DagState.new sha3 c).CausalOrder batches'.flatten) :
    ∃ o o', (HardState.new sha3 c).run sha3 batches = .ok o ∧
      (HardState.new sha3 c).run sha3 batches' = .ok o' ∧
      (o.decided.map DecidedLeader.status <+: o'.decided.map DecidedLeader.status ∧ o.subDags <+: o'.subDags ∨
        o'.decided.map DecidedLeader.status <+: o.decided.map DecidedLeader.status ∧ o'.subDags <+: o.subDags) ∧
      ((∀ b, b ∈ batches.flatten ↔ b ∈ batches'.flatten) →
        o.decided.map DecidedLeader.status = o'.decided.map DecidedLeader.status ∧
          o.subDags = o'.subDags) := by
  -- the universe of what either was fed is closed
  let S := fedRefs batches.flatten ∪ fedRefs batches'.flatten
  have hclosed : (U.restrict S).Closed := by
    refine @restrict_closed sha3 c U S _ fun r hr => ?_
    rcases hr with hr | hr
    · exact ⟨batches.flatten, hfed, hcausal, hr, Set.subset_union_left⟩
    · exact ⟨batches'.flatten, hfed', hcausal', hr, Set.subset_union_right⟩
  obtain ⟨o, vs, hrun, hlabel, hreached, hstores⟩ := (Reached.new sha3 (U.restrict S)).run
    hdistinct.restrict.linksDistinct (fun b hb => Universe.restrict_has.mpr ⟨.inl ⟨b, hb, rfl⟩, hfed b hb⟩) hcausal
  obtain ⟨o', vs', hrun', hlabel', hreached', hstores'⟩ := (Reached.new sha3 (U.restrict S)).run
    hdistinct.restrict.linksDistinct (fun b hb => Universe.restrict_has.mpr ⟨.inr ⟨b, hb, rfl⟩, hfed' b hb⟩) hcausal'
  rw [List.nil_append, List.nil_append] at hreached hreached'
  have hextends : ∀ {o o' : HardOutcome} {vs vs' : List (Option VerifiedBlock)},
      o.decided.map DecidedLeader.status = label c 1 (vs.map some) →
      o'.decided.map DecidedLeader.status = label c 1 (vs'.map some) →
      Reached sha3 (U.restrict S) o.state vs o.subDags → Reached sha3 (U.restrict S) o'.state vs' o'.subDags →
      vs <+: vs' →
      o.decided.map DecidedLeader.status <+: o'.decided.map DecidedLeader.status ∧ o.subDags <+: o'.subDags := by
    intro o o' vs vs' hlabel hlabel' hreached hreached' hpre
    rw [hlabel, hlabel']
    exact ⟨label_isPrefix (hpre.map some), hreached.subDags_isPrefix hreached' hpre⟩
  refine ⟨o, o', hrun, hrun', ?_, fun hsame => ?_⟩
  · rcases hreached.verdicts_isPrefix hclosed hparents.restrict hreached' with hpre | hpre
    · exact .inl (hextends hlabel hlabel' hreached hreached' hpre)
    · exact .inr (hextends hlabel' hlabel hreached' hreached hpre)
  · have hsub : ∀ b, o.state.dag.Stores b ↔ o'.state.dag.Stores b := by
      intro b
      rw [hstores, hstores', hsame]
    have hlen := hreached.length_le hclosed hparents.restrict hreached' fun b => (hsub b).mp
    have hlen' := hreached'.length_le hclosed hparents.restrict hreached fun b => (hsub b).mpr
    obtain rfl : vs = vs' := by
      rcases hreached.verdicts_isPrefix hclosed hparents.restrict hreached' with hpre | hpre
      · exact hpre.eq_of_length_le hlen'
      · exact (hpre.eq_of_length_le hlen).symm
    refine ⟨hlabel.trans hlabel'.symm, ?_⟩
    have hle := hreached.subDags_isPrefix hreached' (List.prefix_refl vs)
    have hge := hreached'.subDags_isPrefix hreached (List.prefix_refl vs)
    exact hle.eq_of_length_le hge.length_le

/-- A node that has seen the whole chain and one that lacks the last link. -/
theorem run_agreement_chain :
    let fresh := HardState.new (fun _ => 0) (Committee.equal 0)
    let run := fresh.run (fun _ => 0) [[link 0, link 1], [link 2, link 3, link 4]]
    let run' := fresh.run (fun _ => 0) [[link 0], [link 1], [link 2], [link 3]]
    run.map (fun o => o.decided.map DecidedLeader.status) = .ok [.commit (link 2)] ∧
      run'.map (fun o => o.decided.map DecidedLeader.status) = .ok [] ∧
      ∃ o o', run = .ok o ∧ run' = .ok o' ∧
        (o.decided.map DecidedLeader.status <+: o'.decided.map DecidedLeader.status ∧ o.subDags <+: o'.subDags ∨
          o'.decided.map DecidedLeader.status <+: o.decided.map DecidedLeader.status ∧
            o'.subDags <+: o.subDags) := by
  have hparents : chain.QuorumParents := by
    have hall : ∀ b ∈ [link 0, link 1, link 2, link 3, link 4], 0 < b.round → (Committee.equal 0).Quorum
        ((b.ancestors.filter fun a => decide (a.round + 1 = b.round)).map BlockRef.author).toFinset := by
      decide
    exact fun r b hb => hall b (Universe.mem_of_ofBlocks hb)
  obtain ⟨o, o', hrun, hrun', hcompare, -⟩ := @run_agreement (fun _ => 0) _ chain chain_distinct hparents
    [[link 0, link 1], [link 2, link 3, link 4]] [[link 0], [link 1], [link 2], [link 3]]
    (by decide +kernel) (by decide +kernel) (by decide +kernel) (by decide +kernel)
  exact ⟨by decide +kernel, by decide +kernel, o, o', hrun, hrun', hcompare⟩

end DualOptimistic.Consensus
