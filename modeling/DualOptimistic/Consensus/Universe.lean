import DualOptimistic.Consensus.DagState

/-! Votes, certificates and the universe of blocks a run is fed from.

A block votes for the first reference it lists into a leader's slot, and certifies the
leader if the authors it lists with such votes are a quorum. A universe fixes the block
behind each reference and bounds the stake that equivocates; in it a slot has at most one
certified block (`Universe.certifies_unique`), and none if a quorum blames the leader
(`Universe.not_certifies_of_blame`). -/
namespace DualOptimistic.Consensus
open Data

/-! ### Votes over a lookup -/

section Lookup
variable (c : Committee) (block : BlockRef → Option VerifiedBlock)

/-- Of the references into the slot of `leader`, the block lists `leader` first. -/
def VerifiedBlock.supports (v : VerifiedBlock) (leader : BlockRef) : Bool :=
  decide ((v.ancestors.find? fun a => decide (a.slot = leader.slot)) = some leader)

/-- The block lists nobody of the leader's authority. -/
def VerifiedBlock.blames (v : VerifiedBlock) (leader : AuthorityIndex) : Bool :=
  v.ancestors.all fun a => a.author != leader

/-- The block behind `r` votes for `leader`. -/
def votesFor (leader r : BlockRef) : Bool :=
  match block r with
  | some v => v.supports leader
  | none => false

/-- The authors of the votes for `leader` that `d` lists. -/
def voters (leader : BlockRef) (d : VerifiedBlock) : Finset AuthorityIndex :=
  ((d.ancestors.filter (votesFor block leader)).map BlockRef.author).toFinset

/-- The votes for `leader` that `d` lists are a quorum. -/
def Certifies (leader : BlockRef) (d : VerifiedBlock) : Prop := c.Quorum (voters block leader d)

instance (leader : BlockRef) (d : VerifiedBlock) : Decidable (Certifies c block leader d) :=
  inferInstanceAs (Decidable (c.Quorum _))

/-- One block lists another, present in the lookup. -/
def Lists (a b : VerifiedBlock) : Prop := ∃ r ∈ a.ancestors, block r = some b

/-- One block has another in its history. -/
def Reaches : VerifiedBlock → VerifiedBlock → Prop := Relation.TransGen (Lists block)

variable {c block}

theorem VerifiedBlock.supports_mem {v : VerifiedBlock} {leader : BlockRef}
    (h : v.supports leader = true) : leader ∈ v.ancestors :=
  List.mem_of_find?_eq_some (of_decide_eq_true h)

/-- A block supports one reference of a slot at most. -/
theorem VerifiedBlock.supports_unique {v : VerifiedBlock} {leader leader' : BlockRef}
    (hslot : leader.slot = leader'.slot) (h : v.supports leader = true)
    (h' : v.supports leader' = true) : leader = leader' := by
  have hfind := of_decide_eq_true h
  have hfind' := of_decide_eq_true h'
  rw [hslot, hfind'] at hfind
  exact (Option.some.inj hfind).symm

theorem mem_voters {leader : BlockRef} {d : VerifiedBlock} {i : AuthorityIndex} :
    i ∈ voters block leader d ↔
      ∃ r ∈ d.ancestors, r.author = i ∧ ∃ v, block r = some v ∧ v.supports leader = true := by
  rw [voters, List.mem_toFinset, List.mem_map]
  refine exists_congr fun r => ?_
  rw [List.mem_filter, and_assoc]
  refine and_congr_right fun _ => ?_
  rw [and_comm]
  refine and_congr_right fun _ => ?_
  unfold votesFor
  cases hr : block r with
  | none => simp
  | some v => simp

end Lookup

/-! ### The universe -/

/-- The blocks that exist: one behind each reference, by committee members, listing lower
rounds only. All but the byzantine authorities, which hold at most `f` stake, have at most
one block per round. -/
structure Universe (c : Committee) where
  block : BlockRef → Option VerifiedBlock
  byzantine : Finset AuthorityIndex
  keyed : ∀ {r b}, block r = some b → b.reference = r
  member : ∀ {r b}, block r = some b → b.author < c.size
  lower : ∀ {r b}, block r = some b → ∀ a ∈ b.ancestors, a.round < b.round
  faults_le : c.quorums.total byzantine ≤ c.faultTolerance
  honest : ∀ {r r' b b'}, block r = some b → block r' = some b' → b.author ∉ byzantine →
    b.slot = b'.slot → b = b'

namespace Universe
variable {c : Committee} (U : Universe c)

/-- The block is the one behind its reference. -/
def Has (b : VerifiedBlock) : Prop := U.block b.reference = some b

instance (b : VerifiedBlock) : Decidable (U.Has b) := inferInstanceAs (Decidable (_ = _))

/-- No block lists a reference twice. -/
def Distinct : Prop := ∀ r b, U.block r = some b → b.ancestors.Nodup

/-- Every block lists ancestors of the round before by a quorum of authors. -/
def QuorumParents : Prop :=
  ∀ r b, U.block r = some b → 0 < b.round →
    c.Quorum ((b.ancestors.filter fun a => decide (a.round + 1 = b.round)).map BlockRef.author).toFinset

/-- Every listed reference above genesis is that of a block. -/
def Closed : Prop := ∀ r b, U.block r = some b → ∀ a ∈ b.ancestors, 0 < a.round → ∃ x, U.block a = some x

/-- The blocks whose references are in a set. -/
def restrict (S : Set BlockRef) [DecidablePred (· ∈ S)] : Universe c where
  block r := if r ∈ S then U.block r else none
  byzantine := U.byzantine
  keyed h := U.keyed (Option.ite_none_right_eq_some.mp h).2
  member h := U.member (Option.ite_none_right_eq_some.mp h).2
  lower h := U.lower (Option.ite_none_right_eq_some.mp h).2
  faults_le := U.faults_le
  honest h h' := U.honest (Option.ite_none_right_eq_some.mp h).2 (Option.ite_none_right_eq_some.mp h').2

/-- The universe of finitely many blocks. -/
def ofBlocks (c : Committee) (blocks : List VerifiedBlock) (byzantine : Finset AuthorityIndex)
    (member : ∀ b ∈ blocks, b.author < c.size)
    (lower : ∀ b ∈ blocks, ∀ a ∈ b.ancestors, a.round < b.round)
    (faults_le : c.quorums.total byzantine ≤ c.faultTolerance)
    (honest : ∀ b ∈ blocks, ∀ b' ∈ blocks, b.author ∉ byzantine → b.slot = b'.slot → b = b') :
    Universe c where
  block r := blocks.find? fun b => decide (b.reference = r)
  byzantine := byzantine
  keyed h := by simpa using List.find?_some h
  member h := member _ (List.mem_of_find?_eq_some h)
  lower h := lower _ (List.mem_of_find?_eq_some h)
  faults_le := faults_le
  honest h h' := honest _ (List.mem_of_find?_eq_some h) _ (List.mem_of_find?_eq_some h')

theorem mem_of_ofBlocks {blocks : List VerifiedBlock} {byzantine : Finset AuthorityIndex}
    {member : ∀ b ∈ blocks, b.author < c.size} {lower : ∀ b ∈ blocks, ∀ a ∈ b.ancestors, a.round < b.round}
    {faults_le : c.quorums.total byzantine ≤ c.faultTolerance}
    {honest : ∀ b ∈ blocks, ∀ b' ∈ blocks, b.author ∉ byzantine → b.slot = b'.slot → b = b'} {r : BlockRef}
    {b : VerifiedBlock} (h : (ofBlocks c blocks byzantine member lower faults_le honest).block r = some b) :
    b ∈ blocks :=
  List.mem_of_find?_eq_some h

variable {U}

theorem restrict_has {S : Set BlockRef} [DecidablePred (· ∈ S)] {b : VerifiedBlock} :
    (U.restrict S).Has b ↔ b.reference ∈ S ∧ U.Has b :=
  Option.ite_none_right_eq_some

theorem Distinct.restrict {S : Set BlockRef} [DecidablePred (· ∈ S)] (h : U.Distinct) :
    (U.restrict S).Distinct :=
  fun r b hb => h r b (Option.ite_none_right_eq_some.mp hb).2

theorem QuorumParents.restrict {S : Set BlockRef} [DecidablePred (· ∈ S)] (h : U.QuorumParents) :
    (U.restrict S).QuorumParents :=
  fun r b hb => h r b (Option.ite_none_right_eq_some.mp hb).2

theorem has_of_block {r : BlockRef} {b : VerifiedBlock} (h : U.block r = some b) : U.Has b := by
  rw [Has, U.keyed h]
  exact h

theorem Has.eq {b b' : VerifiedBlock} (h : U.Has b) (h' : U.Has b') (href : b.reference = b'.reference) :
    b = b' := by
  rw [Has, href] at h
  exact Option.some.inj (h.symm.trans h')

theorem Has.lower {b : VerifiedBlock} (h : U.Has b) {a : BlockRef} (ha : a ∈ b.ancestors) :
    a.round < b.round :=
  U.lower h a ha

/-- The blocks of two quorums of authors at one round share a block. -/
theorem exists_common {A B : Finset AuthorityIndex} {round : Round} {P Q : VerifiedBlock → Prop}
    (hA : c.Quorum A) (hB : c.Quorum B)
    (hP : ∀ i ∈ A, ∃ b, U.Has b ∧ b.author = i ∧ b.round = round ∧ P b)
    (hQ : ∀ i ∈ B, ∃ b, U.Has b ∧ b.author = i ∧ b.round = round ∧ Q b) :
    ∃ b, U.Has b ∧ b.round = round ∧ P b ∧ Q b := by
  obtain ⟨i, hiA, hiB, hi⟩ := hA.exists_common_correct hB U.faults_le
  obtain ⟨b, hb, hbi, hbr, hbP⟩ := hP i hiA
  obtain ⟨b', hb', hbi', hbr', hbQ⟩ := hQ i hiB
  have hslot : b.slot = b'.slot := by
    show Slot.mk b.round b.author = Slot.mk b'.round b'.author
    rw [hbi, hbi', hbr, hbr']
  obtain rfl := U.honest hb hb' (hbi ▸ hi) hslot
  exact ⟨b, hb, hbr, hbP, hbQ⟩

/-! ### Certificates -/

/-- The votes a block two rounds above the leader lists are blocks of the voting round. -/
theorem vote_of_mem_voters {leader : BlockRef} {d : VerifiedBlock} (hd : U.Has d)
    (hround : d.round = leader.round + 2) {i : AuthorityIndex} (hi : i ∈ voters U.block leader d) :
    ∃ v, U.Has v ∧ v.author = i ∧ v.round = leader.round + 1 ∧ v.supports leader = true := by
  obtain ⟨r, hr, hri, v, hv, hsupports⟩ := mem_voters.mp hi
  have hhas := has_of_block hv
  have habove : leader.round < v.round := hhas.lower (VerifiedBlock.supports_mem hsupports)
  have hbelow : r.round < d.round := hd.lower hr
  have hvr : v.reference = r := U.keyed hv
  have hvround : v.round = r.round := by rw [← hvr, VerifiedBlock.reference_round]
  refine ⟨v, hhas, ?_, ?_, hsupports⟩
  · rw [← hri, ← hvr, VerifiedBlock.reference_author]
  · rw [hround, ← hvround] at hbelow
    exact Nat.le_antisymm (Nat.le_of_lt_succ hbelow) habove

/-- **Certificates are unique.** Two references of a slot that are certified two rounds
later are the same. -/
theorem certifies_unique {leader leader' : BlockRef} (hslot : leader.slot = leader'.slot)
    {d d' : VerifiedBlock} (hd : U.Has d) (hd' : U.Has d') (hround : d.round = leader.round + 2)
    (hround' : d'.round = leader.round + 2) (h : Certifies c U.block leader d)
    (h' : Certifies c U.block leader' d') : leader = leader' := by
  have hrounds : leader.round = leader'.round := congrArg Slot.round hslot
  have hvotes' : ∀ i ∈ voters U.block leader' d',
      ∃ v, U.Has v ∧ v.author = i ∧ v.round = leader.round + 1 ∧ v.supports leader' = true := by
    intro i hi
    rw [hrounds] at hround' ⊢
    exact vote_of_mem_voters hd' hround' hi
  obtain ⟨v, -, -, hv, hv'⟩ := exists_common h h' (fun i hi => vote_of_mem_voters hd hround hi) hvotes'
  exact VerifiedBlock.supports_unique hslot hv hv'

/-- A leader blamed by a quorum of the voting round is certified nowhere. -/
theorem not_certifies_of_blame {leader : BlockRef} {B : Finset AuthorityIndex} (hB : c.Quorum B)
    (hblame : ∀ i ∈ B, ∃ b, U.Has b ∧ b.author = i ∧ b.round = leader.round + 1 ∧
      b.blames leader.author = true)
    {d : VerifiedBlock} (hd : U.Has d) (hround : d.round = leader.round + 2) :
    ¬ Certifies c U.block leader d := by
  intro h
  obtain ⟨v, -, -, hv, hblamed⟩ :=
    exists_common h hB (fun i hi => vote_of_mem_voters hd hround hi) hblame
  have hne := List.all_eq_true.mp hblamed leader (VerifiedBlock.supports_mem hv)
  simp at hne

/-! ### Histories -/

theorem Lists.has {a b : VerifiedBlock} (h : Lists U.block a b) : U.Has b := by
  obtain ⟨r, -, hb⟩ := h
  exact has_of_block hb

/-- With quorum parents, what a quorum of a round satisfies is met in the history of every
later block. -/
theorem exists_reached (hclosed : U.Closed) (hparents : U.QuorumParents) {round : Round}
    (hpos : 0 < round) {A : Finset AuthorityIndex} (hA : c.Quorum A) {P : VerifiedBlock → Prop}
    (hP : ∀ i ∈ A, ∃ b, U.Has b ∧ b.author = i ∧ b.round = round ∧ P b) {a : VerifiedBlock}
    (ha : U.Has a) (hround : round < a.round) :
    ∃ b, U.Has b ∧ b.round = round ∧ P b ∧ Reaches U.block a b := by
  -- down from `a`, one round at a time
  obtain ⟨n, hn⟩ := Nat.exists_eq_add_of_lt hround
  induction n generalizing a with
  | zero =>
    have hsteps : a.round = round + 1 := hn
    have hlisted : ∀ i ∈ ((a.ancestors.filter fun r => decide (r.round + 1 = a.round)).map
        BlockRef.author).toFinset,
        ∃ b, U.Has b ∧ b.author = i ∧ b.round = round ∧ Lists U.block a b := by
      intro i hi
      rw [List.mem_toFinset, List.mem_map] at hi
      obtain ⟨r, hr, hri⟩ := hi
      rw [List.mem_filter, decide_eq_true_iff] at hr
      have hrr : r.round = round := Nat.succ.inj (hr.2.trans hsteps)
      obtain ⟨x, hx⟩ := hclosed _ a ha r hr.1 (hrr.symm ▸ hpos)
      have hxr : x.reference = r := U.keyed hx
      refine ⟨x, has_of_block hx, ?_, ?_, r, hr.1, hx⟩
      · rw [← hri, ← hxr, VerifiedBlock.reference_author]
      · rw [← hrr, ← hxr, VerifiedBlock.reference_round]
    have hquorum := hparents _ a ha (Nat.lt_of_le_of_lt (Nat.zero_le _) hround)
    obtain ⟨b, hb, hbr, hbP, hlists⟩ := exists_common hA hquorum hP hlisted
    exact ⟨b, hb, hbr, hbP, .single hlists⟩
  | succ n ih =>
    obtain ⟨i, hi⟩ := (hparents _ a ha (Nat.lt_of_le_of_lt (Nat.zero_le _) hround)).nonempty
    rw [List.mem_toFinset, List.mem_map] at hi
    obtain ⟨r, hr, -⟩ := hi
    rw [List.mem_filter, decide_eq_true_iff] at hr
    have hrr : r.round = round + n + 1 := Nat.succ.inj (hr.2.trans hn)
    obtain ⟨x, hx⟩ := hclosed _ a ha r hr.1 (hrr.symm ▸ Nat.succ_pos _)
    have hxround : x.round = round + n + 1 := by
      rw [← hrr, ← U.keyed hx, VerifiedBlock.reference_round]
    have hlt : round < x.round := by
      rw [hxround]
      exact Nat.lt_succ_of_le (Nat.le_add_right ..)
    obtain ⟨b, hb, hbr, hbP, hreach⟩ := ih (has_of_block hx) hlt hxround
    exact ⟨b, hb, hbr, hbP, .head ⟨r, hr.1, hx⟩ hreach⟩

end Universe

end DualOptimistic.Consensus
