import DualOptimistic.Consensus.CausalClosure

/-! Does the order of delivery matter?

The blocks of a closed set are delivered in some order, in batches, some of them
again. Whatever is delivered, the known blocks are those processed so far, stored or
suspended (`Tracks`). A block wakes only when the last ancestor it waits for is
accepted on arrival; an ancestor that is itself woken wakes nobody. So the order is
harmless exactly if the ancestors a block is left waiting for arrive complete
(`settled_iff_timely`). -/
namespace DualOptimistic.Consensus
open Data

namespace BlockManager

/-- A finite set of proposals by members of the committee, closed under non-genesis
ancestors. A reference identifies a block, and ancestors sit at lower rounds. The genesis
blocks are left out: they are always there, so no delivery accepts them. -/
structure BlockSet (c : Committee) (genesis : BlockStore) where
  blocks : Finset VerifiedBlock
  member : ∀ b ∈ blocks, b.author < c.size
  identified : ∀ a ∈ blocks, ∀ b ∈ blocks, a.reference = b.reference → a = b
  lower : ∀ b ∈ blocks, ∀ a ∈ b.ancestors, a.round < b.round
  closed : ∀ b ∈ blocks, ∀ a ∈ b.ancestors, 0 < a.round → ∃ x ∈ blocks, x.reference = a
  proposal : ∀ b ∈ blocks, genesis.map.contains b.reference = false

/-- The non-genesis ancestors of `b` that no block of `l` is. -/
def lacking (l : List VerifiedBlock) (b : VerifiedBlock) : List BlockRef :=
  b.ancestors.filter fun a => 0 < a.round ∧ a ∉ l.map VerifiedBlock.reference

/-- With `l` delivered and `r` to come, `b` does not come again before all its
ancestors have. -/
def NoRetry (l r : List VerifiedBlock) (b : VerifiedBlock) : Prop :=
  ∀ l' r', r = l' ++ b :: r' → lacking (l ++ l') b = []

/-- Whenever a block arrives before some ancestors and does not arrive again before
they all have, each of these ancestors arrives, the first time, after its own. -/
def Timely (p : List VerifiedBlock) : Prop :=
  ∀ l b r, p = l ++ b :: r → NoRetry (l ++ [b]) r b →
    ∀ x l₁ l₂, x.reference ∈ lacking l b → p = l₁ ++ x :: l₂ →
      x.reference ∉ l₁.map VerifiedBlock.reference → lacking l₁ x = []

theorem mem_lacking {l : List VerifiedBlock} {b : VerifiedBlock} {a : BlockRef} :
    a ∈ lacking l b ↔ a ∈ b.ancestors ∧ 0 < a.round ∧ a ∉ l.map VerifiedBlock.reference := by
  simp only [lacking, List.mem_filter, decide_eq_true_iff]

/-- What a block lacks shrinks by what arrives. -/
theorem mem_lacking_append {l : List VerifiedBlock} {b x : VerifiedBlock} {a : BlockRef} :
    a ∈ lacking (l ++ [x]) b ↔ a ∈ lacking l b ∧ a ≠ x.reference := by
  simp only [mem_lacking, List.map_append, List.map_cons, List.map_nil, List.mem_append,
    List.mem_singleton]
  tauto

theorem lacking_eq_nil_of_append {l r : List VerifiedBlock} {b : VerifiedBlock} (h : lacking l b = []) :
    lacking (l ++ r) b = [] := by
  refine List.eq_nil_iff_forall_not_mem.mpr fun a ha => ?_
  obtain ⟨hanc, hpos, hnew⟩ := mem_lacking.mp ha
  have hl : a ∈ lacking l b := by
    refine mem_lacking.mpr ⟨hanc, hpos, fun hmem => hnew ?_⟩
    rw [List.map_append]
    exact List.mem_append_left _ hmem
  rw [h] at hl
  cases hl

theorem noRetry_of_complete {l : List VerifiedBlock} (r : List VerifiedBlock) {b : VerifiedBlock}
    (h : lacking l b = []) : NoRetry l r b :=
  fun _ _ _ => lacking_eq_nil_of_append h

theorem NoRetry.tail {l r : List VerifiedBlock} {b x : VerifiedBlock} (h : NoRetry l (b :: r) x) :
    NoRetry (l ++ [b]) r x := by
  intro l' r' hr
  rw [List.append_assoc]
  exact h (b :: l') r' (by rw [hr]; rfl)

theorem NoRetry.cons {l r : List VerifiedBlock} {b x : VerifiedBlock} (h : NoRetry (l ++ [b]) r x)
    (hne : x ≠ b) : NoRetry l (b :: r) x := by
  intro l' r' hr
  cases l' with
  | nil => exact absurd (List.cons.inj hr).1.symm hne
  | cons y l' =>
    obtain ⟨hby, hr'⟩ := List.cons.inj hr
    have hlack := h l' r' hr'
    rw [List.append_assoc, hby] at hlack
    exact hlack

/-- A block that is not among `mid` comes again only after them. -/
theorem NoRetry.skip {l mid r : List VerifiedBlock} {x : VerifiedBlock} (hmid : x ∉ mid)
    (h : NoRetry (l ++ mid) r x) : NoRetry l (mid ++ r) x := by
  induction mid generalizing l with
  | nil =>
    rw [List.append_nil] at h
    exact h
  | cons y rest ih =>
    have hrest : NoRetry (l ++ [y]) (rest ++ r) x := by
      apply ih (fun hx => hmid (List.mem_cons_of_mem _ hx))
      rw [List.append_assoc]
      exact h
    exact hrest.cons fun hxy => hmid (hxy ▸ List.mem_cons_self ..)

/-- The state after the blocks of `l` have been processed: the known references are
those of `l`, stored blocks lack nothing, suspended ones wait at least for what they lack. -/
structure Tracks (genesis : BlockStore) (l : List VerifiedBlock) (m : BlockManager) : Prop where
  registered : m.Registered
  genesis_eq : m.dagState.genesis = genesis
  known : ∀ k, m.dagState.blocks.map.contains k = true ∨ m.suspendedBlocks.contains k = true ↔
    k ∈ l.map VerifiedBlock.reference
  stored : ∀ k b, m.dagState.blocks.map.get? k = some b → b ∈ l ∧ lacking l b = []
  waiting : ∀ k s, m.suspendedBlocks.get? k = some s → s.block ∈ l ∧
    ∀ a ∈ lacking l s.block, a ∈ OrdSet.toList s.missingAncestors

section
variable {c : Committee} {genesis : BlockStore} (S : BlockSet c genesis) {l : List VerifiedBlock} {m : BlockManager}
  {b : VerifiedBlock}

theorem Tracks.containsBlock (h : Tracks genesis l m) (hb : b ∈ S.blocks) :
    m.dagState.containsBlock b.reference = m.dagState.blocks.map.contains b.reference := by
  rw [DagState.containsBlock, h.genesis_eq, S.proposal b hb, Bool.or_false]

/-- What the manager finds missing is what has not been delivered. -/
theorem Tracks.mem_missing_iff (h : Tracks genesis l m) {a : BlockRef} :
    a ∈ OrdSet.toList (m.missing b) ↔ a ∈ lacking l b := by
  rw [mem_missing, mem_lacking]
  refine and_congr_right fun _ => and_congr_right fun hpos => ?_
  rw [← h.known a, DagState.containsBlock_of_round_pos hpos, not_or, Bool.not_eq_true,
    Bool.not_eq_true]

theorem Tracks.missing_eq_nil (h : Tracks genesis l m) :
    OrdSet.toList (m.missing b) = [] ↔ lacking l b = [] := by
  simp only [List.eq_nil_iff_forall_not_mem, h.mem_missing_iff]

theorem Tracks.processed_again (h : Tracks genesis l m)
    (hb : m.dagState.blocks.map.contains b.reference = true) : Tracks genesis (l ++ [b]) m where
  registered := h.registered
  genesis_eq := h.genesis_eq
  known := by
    intro k
    rw [h.known, List.map_append, List.mem_append, List.map_singleton, List.mem_singleton]
    refine ⟨.inl, fun hk => hk.elim id fun hk => ?_⟩
    rw [hk]
    exact (h.known _).mp (.inl hb)
  stored := by
    intro k x hx
    obtain ⟨hmem, hlack⟩ := h.stored k x hx
    exact ⟨List.mem_append_left _ hmem, lacking_eq_nil_of_append hlack⟩
  waiting := by
    intro k s hs
    obtain ⟨hmem, hlack⟩ := h.waiting k s hs
    exact ⟨List.mem_append_left _ hmem, fun a ha => hlack a (mem_lacking_append.mp ha).1⟩

theorem Tracks.suspend (h : Tracks genesis l m) (hmiss : OrdSet.toList (m.missing b) ≠ []) :
    Tracks genesis (l ++ [b]) (m.suspend b (m.missing b)) where
  registered := h.registered.suspend hmiss
  genesis_eq := h.genesis_eq
  known := by
    intro k
    have hsusp : (m.suspend b (m.missing b)).suspendedBlocks.contains k =
        (decide (k = b.reference) || m.suspendedBlocks.contains k) := OrdMap.contains_insert ..
    rw [hsusp, List.map_append, List.mem_append, List.map_singleton, List.mem_singleton, ← h.known k,
      Bool.or_eq_true, decide_eq_true_iff]
    show m.dagState.blocks.map.contains k = true ∨ _ ↔ _
    tauto
  stored := by
    intro k x hx
    obtain ⟨hmem, hlack⟩ := h.stored k x hx
    exact ⟨List.mem_append_left _ hmem, lacking_eq_nil_of_append hlack⟩
  waiting := by
    intro k s hs
    rw [BlockManager.suspend, OrdMap.get?_insert] at hs
    split_ifs at hs
    · rw [← Option.some.inj hs]
      refine ⟨List.mem_append_right _ (List.mem_singleton_self b), fun a ha => ?_⟩
      exact h.mem_missing_iff.mpr (mem_lacking_append.mp ha).1
    · obtain ⟨hmem, hlack⟩ := h.waiting k s hs
      exact ⟨List.mem_append_left _ hmem, fun a ha => hlack a (mem_lacking_append.mp ha).1⟩

theorem Tracks.store (h : Tracks genesis l m) (hlack : lacking l b = []) :
    Tracks genesis (l ++ [b]) (m.storeWithChildren b).manager where
  registered := by
    obtain ⟨hkeyed, hwaits, hanc, hidx⟩ := h.registered.unsuspend b.reference
    exact ⟨hkeyed, hwaits, hanc, hidx⟩
  genesis_eq := by
    rw [storeWithChildren_dagState, DagState.acceptBlocks_genesis]
    exact h.genesis_eq
  known := by
    intro k
    rw [storeWithChildren_dagState, DagState.blocks_contains_acceptBlocks, List.map_append,
      List.mem_append, List.map_singleton, List.mem_singleton, ← h.known k,
      mem_accepted_storeWithChildren h.registered, contains_storeWithChildren h.registered]
    have hsusp : m.suspendedBlocks.contains k = true ↔
        (∃ s, m.suspendedBlocks.get? k = some s ∧ s.without b.reference = none) ∨
          ∃ s, m.suspendedBlocks.get? k = some s ∧ s.without b.reference ≠ none := by
      rw [OrdMap.contains_iff, ← exists_or]
      simp only [← and_or_left, em, and_true]
    simp only [hsusp, or_assoc, or_comm, or_left_comm]
  stored := by
    intro k x hx
    rw [storeWithChildren_dagState] at hx
    rcases DagState.mem_of_blocks_acceptBlocks hx with hx | hx
    · rcases List.mem_cons.mp hx with rfl | hx
      · exact ⟨List.mem_append_right _ (List.mem_singleton_self _), lacking_eq_nil_of_append hlack⟩
      · obtain ⟨s, hs, hnone, rfl⟩ := (mem_unsuspended h.registered).mp hx
        obtain ⟨hmem, hwaits⟩ := h.waiting _ s hs
        refine ⟨List.mem_append_left _ hmem, List.eq_nil_iff_forall_not_mem.mpr fun a ha => ?_⟩
        obtain ⟨ha, hne⟩ := mem_lacking_append.mp ha
        exact hne (SuspendedBlock.without_eq_none.mp hnone a (hwaits a ha))
    · obtain ⟨hmem, hlack⟩ := h.stored k x hx
      exact ⟨List.mem_append_left _ hmem, lacking_eq_nil_of_append hlack⟩
  waiting := by
    intro k s' hs'
    rw [get?_storeWithChildren h.registered] at hs'
    obtain ⟨s, hs, hwithout⟩ := Option.bind_eq_some_iff.mp hs'
    obtain ⟨hblock, -, hmem⟩ := SuspendedBlock.of_without hwithout
    obtain ⟨hin, hwaits⟩ := h.waiting k s hs
    rw [hblock]
    refine ⟨List.mem_append_left _ hin, fun a ha => ?_⟩
    obtain ⟨ha, hne⟩ := mem_lacking_append.mp ha
    exact (hmem a).mpr ⟨hne, hwaits a ha⟩

theorem tracks_new (sha3 : List UInt8 → BlockDigest) (c : Committee) :
    Tracks (DagState.genesisStore sha3 c) [] (new (DagState.new sha3 c)) where
  registered := registered_new _
  genesis_eq := rfl
  known := by
    intro k
    show (∅ : BlockStore).map.contains k = true ∨ (∅ : OrdMap BlockRef SuspendedBlock).contains k = true ↔ _
    simp [OrdMap.contains]
  stored := by intro k x hx; cases hx
  waiting := by intro k s hs; cases hs

/-- The three things a delivery can do, in terms of what has been delivered before. -/
theorem Tracks.acceptOne_cases (h : Tracks genesis l m) (hb : b ∈ S.blocks) :
    (m.dagState.blocks.map.contains b.reference = true ∧ m.acceptOne b = ⟨[], ∅, m⟩) ∨
    (m.dagState.blocks.map.contains b.reference = false ∧ lacking l b ≠ [] ∧
      m.acceptOne b = ⟨[], m.missing b, m.suspend b (m.missing b)⟩) ∨
    (m.dagState.blocks.map.contains b.reference = false ∧ lacking l b = [] ∧
      m.acceptOne b = m.storeWithChildren b) := by
  have hcases := m.acceptOne_cases b
  rw [h.containsBlock S hb, ne_eq, h.missing_eq_nil] at hcases
  exact hcases

theorem Tracks.acceptOne (h : Tracks genesis l m) (hb : b ∈ S.blocks) :
    Tracks genesis (l ++ [b]) (m.acceptOne b).manager := by
  rcases h.acceptOne_cases S hb with ⟨hstored, hstep⟩ | ⟨-, hlack, hstep⟩ | ⟨-, hlack, hstep⟩
  · rw [hstep]
    exact h.processed_again hstored
  · rw [hstep]
    exact h.suspend (h.missing_eq_nil.not.mpr hlack)
  · rw [hstep]
    exact h.store hlack

theorem Tracks.acceptEach (h : Tracks genesis l m) {r : List VerifiedBlock}
    (hr : ∀ b ∈ r, b ∈ S.blocks) : Tracks genesis (l ++ r) (m.acceptEach r).manager := by
  induction r generalizing l m with
  | nil =>
    rw [List.append_nil]
    exact h
  | cons b rest ih =>
    have hrest := ih (h.acceptOne S (hr b (List.mem_cons_self ..)))
      fun x hx => hr x (List.mem_cons_of_mem _ hx)
    rw [List.append_assoc] at hrest
    exact hrest

/-- A suspended block of the set, found by reference. -/
theorem Tracks.block_eq (h : Tracks genesis l m) (hl : ∀ x ∈ l, x ∈ S.blocks) (hb : b ∈ S.blocks)
    {s : SuspendedBlock} (hs : m.suspendedBlocks.get? b.reference = some s) : s.block = b :=
  S.identified _ (hl _ (h.waiting _ s hs).1) _ hb (h.registered.keyed _ s hs)

/-! ### A timely delivery leaves nothing behind -/

/-- Where a suspended block was last processed, and that it waits for what it lacked there. -/
def Placed (l : List VerifiedBlock) (s : SuspendedBlock) : Prop :=
  ∃ l₁ l₂, l = l₁ ++ s.block :: l₂ ∧ s.block ∉ l₂ ∧
    ∀ a ∈ OrdSet.toList s.missingAncestors, a ∈ lacking l₁ s.block

theorem Placed.append {l : List VerifiedBlock} {s : SuspendedBlock} {b : VerifiedBlock}
    (h : Placed l s) (hne : s.block ≠ b) : Placed (l ++ [b]) s := by
  obtain ⟨l₁, l₂, hsplit, hnot, hsub⟩ := h
  refine ⟨l₁, l₂ ++ [b], by rw [hsplit]; simp, ?_, hsub⟩
  rw [List.mem_append, List.mem_singleton, not_or]
  exact ⟨hnot, hne⟩

/-- No stored block is suspended, and a suspended block that will not come again too
early waits for nothing it does not lack. -/
def OnTime (l r : List VerifiedBlock) (m : BlockManager) : Prop :=
  ∀ k s, m.suspendedBlocks.get? k = some s →
    m.dagState.blocks.map.contains k = false ∧ Placed l s ∧
    (NoRetry l r s.block → ∀ a ∈ OrdSet.toList s.missingAncestors, a ∈ lacking l s.block)

variable {r : List VerifiedBlock}

/-- Nothing complete is suspended. -/
theorem OnTime.not_suspended (h : OnTime l r m) (ht : Tracks genesis l m)
    (hl : ∀ x ∈ l, x ∈ S.blocks) (hb : b ∈ S.blocks) (hlack : lacking l b = []) :
    m.suspendedBlocks.get? b.reference = none := by
  by_contra hne
  obtain ⟨s, hs⟩ := Option.ne_none_iff_exists'.mp hne
  have hblock := ht.block_eq S hl hb hs
  obtain ⟨a, ha⟩ := List.exists_mem_of_ne_nil _ (ht.registered.waits _ s hs)
  have hmem := (h _ s hs).2.2 (hblock ▸ noRetry_of_complete r hlack) a ha
  rw [hblock, hlack] at hmem
  cases hmem

theorem OnTime.processed_again (h : OnTime l (b :: r) m) (ht : Tracks genesis l m)
    (hstored : m.dagState.blocks.map.contains b.reference = true) : OnTime (l ++ [b]) r m := by
  intro k s hs
  obtain ⟨hk, hplaced, hwaits⟩ := h k s hs
  have hne : s.block ≠ b := by
    intro hsb
    rw [← ht.registered.keyed k s hs, hsb, hstored] at hk
    cases hk
  refine ⟨hk, hplaced.append hne, fun hretry a ha => ?_⟩
  have hmem := hwaits (hretry.cons hne) a ha
  refine mem_lacking_append.mpr ⟨hmem, fun hab => ?_⟩
  exact (mem_lacking.mp hmem).2.2 (hab ▸ (ht.known _).mp (.inl hstored))

theorem OnTime.suspend (h : OnTime l (b :: r) m) (htimely : Timely (l ++ b :: r))
    (ht : Tracks genesis l m) (hb : b ∈ S.blocks)
    (hnew : m.dagState.blocks.map.contains b.reference = false) (hlack : lacking l b ≠ []) :
    OnTime (l ++ [b]) r (m.suspend b (m.missing b)) := by
  intro k s hs
  rw [BlockManager.suspend, OrdMap.get?_insert] at hs
  split_ifs at hs with hk
  · rw [← Option.some.inj hs]
    refine ⟨hk ▸ hnew, ⟨l, [], rfl, List.not_mem_nil, fun a ha => ht.mem_missing_iff.mp ha⟩, ?_⟩
    intro _ a ha
    have hmem := ht.mem_missing_iff.mp ha
    refine mem_lacking_append.mpr ⟨hmem, fun hab => ?_⟩
    have hlt := S.lower b hb a (mem_lacking.mp hmem).1
    rw [hab] at hlt
    exact lt_irrefl _ hlt
  · obtain ⟨hnot, hplaced, hwaits⟩ := h k s hs
    have hne : s.block ≠ b := fun hsb => hk (by rw [← ht.registered.keyed k s hs, hsb])
    refine ⟨hnot, hplaced.append hne, fun hretry a ha => ?_⟩
    have hmem := hwaits (hretry.cons hne) a ha
    refine mem_lacking_append.mpr ⟨hmem, fun hab => hlack ?_⟩
    -- the awaited `b` arrives here for the first time, so it must be complete
    obtain ⟨l₁, l₂, hsplit, hnot₂, hsub⟩ := hplaced
    have hlate : NoRetry (l₁ ++ [s.block]) (l₂ ++ b :: r) s.block := by
      apply NoRetry.skip hnot₂
      rw [List.append_assoc, List.singleton_append, ← hsplit]
      exact hretry.cons hne
    refine htimely l₁ s.block (l₂ ++ b :: r) (by rw [hsplit]; simp) hlate b l r (hab ▸ hsub a ha)
      rfl (hab ▸ (mem_lacking.mp hmem).2.2)

theorem OnTime.store (h : OnTime l (b :: r) m) (ht : Tracks genesis l m)
    (hl : ∀ x ∈ l, x ∈ S.blocks) (hb : b ∈ S.blocks) (hlack : lacking l b = []) :
    OnTime (l ++ [b]) r (m.storeWithChildren b).manager := by
  have hnone := h.not_suspended S ht hl hb hlack
  intro k s' hs'
  rw [get?_storeWithChildren ht.registered] at hs'
  obtain ⟨s, hs, hwithout⟩ := Option.bind_eq_some_iff.mp hs'
  obtain ⟨hblock, -, hmem⟩ := SuspendedBlock.of_without hwithout
  obtain ⟨hnot, hplaced, hwaits⟩ := h k s hs
  have hkb : k ≠ b.reference := by
    intro hkb
    rw [hkb, hnone] at hs
    cases hs
  have hne : s.block ≠ b := fun hsb => hkb (by rw [← ht.registered.keyed k s hs, hsb])
  refine ⟨?_, ?_, fun hretry a ha => ?_⟩
  · apply Bool.eq_false_of_not_eq_true
    rw [storeWithChildren_dagState, DagState.blocks_contains_acceptBlocks,
      mem_accepted_storeWithChildren ht.registered]
    rintro ((hk | ⟨t, hget, hwoken⟩) | hk)
    · exact hkb hk
    · rw [hs] at hget
      rw [← Option.some.inj hget, hwithout] at hwoken
      cases hwoken
    · rw [hnot] at hk
      cases hk
  · obtain ⟨l₁, l₂, heq, hnot₂, hsub⟩ := hplaced.append hne
    exact ⟨l₁, l₂, by rw [hblock, heq], hblock ▸ hnot₂, fun a ha => hblock ▸ hsub a ((hmem a).mp ha).2⟩
  · obtain ⟨hab, ha⟩ := (hmem a).mp ha
    rw [hblock] at hretry ⊢
    exact mem_lacking_append.mpr ⟨hwaits (hretry.cons hne) a ha, hab⟩

/-- What one timely delivery stores is new, and it stays on time. -/
theorem OnTime.acceptOne (h : OnTime l (b :: r) m) (htimely : Timely (l ++ b :: r))
    (ht : Tracks genesis l m) (hl : ∀ x ∈ l, x ∈ S.blocks) (hb : b ∈ S.blocks) :
    OnTime (l ++ [b]) r (m.acceptOne b).manager ∧
      ((m.acceptOne b).accepted.map VerifiedBlock.reference).Nodup ∧
      ∀ k ∈ (m.acceptOne b).accepted.map VerifiedBlock.reference,
        m.dagState.blocks.map.contains k = false := by
  rcases ht.acceptOne_cases S hb with ⟨hstored, hstep⟩ | ⟨hnew, hlack, hstep⟩ | ⟨hnew, hlack, hstep⟩
  · rw [hstep]
    exact ⟨h.processed_again ht hstored, List.nodup_nil, fun k hk => by cases hk⟩
  · rw [hstep]
    exact ⟨h.suspend S htimely ht hb hnew hlack, List.nodup_nil, fun k hk => by cases hk⟩
  · rw [hstep]
    refine ⟨h.store S ht hl hb hlack, ?_, fun k hk => ?_⟩
    · refine List.nodup_cons.mpr ⟨fun hmem => ?_, unsuspended_nodup ht.registered _⟩
      obtain ⟨x, hx, hxb⟩ := List.mem_map.mp hmem
      obtain ⟨s, hs, -⟩ := (mem_unsuspended ht.registered).mp hx
      rw [hxb, h.not_suspended S ht hl hb hlack] at hs
      cases hs
    · rcases (mem_accepted_storeWithChildren ht.registered).mp hk with rfl | ⟨s, hs, -⟩
      · exact hnew
      · exact (h k s hs).1

theorem OnTime.acceptEach (h : OnTime l r m) (htimely : Timely (l ++ r)) (ht : Tracks genesis l m)
    (hl : ∀ x ∈ l, x ∈ S.blocks) (hr : ∀ x ∈ r, x ∈ S.blocks) :
    OnTime (l ++ r) [] (m.acceptEach r).manager ∧
      ((m.acceptEach r).accepted.map VerifiedBlock.reference).Nodup ∧
      ∀ k ∈ (m.acceptEach r).accepted.map VerifiedBlock.reference,
        m.dagState.blocks.map.contains k = false := by
  induction r generalizing l m with
  | nil =>
    rw [List.append_nil]
    exact ⟨h, List.nodup_nil, fun k hk => by cases hk⟩
  | cons b rest ih =>
    have hb : b ∈ S.blocks := hr b (List.mem_cons_self ..)
    have hl' : ∀ x ∈ l ++ [b], x ∈ S.blocks :=
      List.forall_mem_append.mpr ⟨hl, List.forall_mem_singleton.mpr hb⟩
    have hsplit : l ++ b :: rest = l ++ [b] ++ rest := by rw [List.append_assoc, List.singleton_append]
    obtain ⟨hon, hnodup, hfresh⟩ := h.acceptOne S htimely ht hl hb
    obtain ⟨hon', hnodup', hfresh'⟩ := ih hon (hsplit ▸ htimely) (ht.acceptOne S hb) hl'
      fun x hx => hr x (List.mem_cons_of_mem _ hx)
    refine ⟨hsplit ▸ hon', ?_, ?_⟩
    · show ((m.acceptOne b).accepted ++ _).map VerifiedBlock.reference |>.Nodup
      rw [List.map_append]
      refine List.Nodup.append hnodup hnodup' fun k hk hk' => ?_
      have hnot := hfresh' k hk'
      rw [acceptOne_dagState, ← Bool.not_eq_true, DagState.blocks_contains_acceptBlocks] at hnot
      exact hnot (.inl hk)
    · intro k hk
      change k ∈ ((m.acceptOne b).accepted ++ _).map VerifiedBlock.reference at hk
      rw [List.map_append] at hk
      rcases List.mem_append.mp hk with hk | hk
      · exact hfresh k hk
      · have hnot := hfresh' k hk
        rw [acceptOne_dagState, ← Bool.not_eq_true, DagState.blocks_contains_acceptBlocks, not_or] at hnot
        exact Bool.eq_false_of_not_eq_true hnot.2

/-! ### A late ancestor leaves something suspended -/

/-- A suspended block waits for one that was already processed, and will not come
again before its ancestors have. -/
def Stuck (l r : List VerifiedBlock) (m : BlockManager) : Prop :=
  ∃ k s a, m.suspendedBlocks.get? k = some s ∧ a ∈ OrdSet.toList s.missingAncestors ∧
    a ∈ l.map VerifiedBlock.reference ∧ NoRetry l r s.block

/-- Taking `b` off the list of a block that waits for another leaves it waiting. -/
theorem Tracks.waits_storeWithChildren (ht : Tracks genesis l m) {k a : BlockRef} {s : SuspendedBlock}
    (hs : m.suspendedBlocks.get? k = some s) (ha : a ∈ OrdSet.toList s.missingAncestors) (hne : a ≠ b.reference) :
    ∃ s', (m.storeWithChildren b).manager.suspendedBlocks.get? k = some s' ∧ s'.block = s.block ∧
      a ∈ OrdSet.toList s'.missingAncestors := by
  rw [get?_storeWithChildren ht.registered, hs, Option.bind_some]
  cases hwithout : s.without b.reference with
  | none => exact absurd (SuspendedBlock.without_eq_none.mp hwithout a ha) hne
  | some s' =>
    obtain ⟨hblock, -, hmem⟩ := SuspendedBlock.of_without hwithout
    exact ⟨s', rfl, hblock, (hmem a).mpr ⟨hne, ha⟩⟩

/-- A delivered block that is stored from outside its own suspended entry leaves that behind. -/
theorem Tracks.stuck_storeWithChildren (ht : Tracks genesis l m) (hl : ∀ x ∈ l, x ∈ S.blocks) (hb : b ∈ S.blocks)
    (hnew : m.dagState.blocks.map.contains b.reference = false) (hlack : lacking l b = [])
    (hknown : b.reference ∈ l.map VerifiedBlock.reference) :
    Stuck (l ++ [b]) r (m.storeWithChildren b).manager := by
  obtain ⟨t, htget⟩ : ∃ t, m.suspendedBlocks.get? b.reference = some t := by
    rcases (ht.known b.reference).mpr hknown with hstored | hsusp
    · rw [hnew] at hstored
      cases hstored
    · exact OrdMap.contains_iff.mp hsusp
  have htb : t.block = b := ht.block_eq S hl hb htget
  obtain ⟨y, hy⟩ := List.exists_mem_of_ne_nil _ (ht.registered.waits _ t htget)
  obtain ⟨hanc, hpos⟩ := ht.registered.ancestor _ t htget y hy
  rw [htb] at hanc
  have hyb : y ≠ b.reference := by
    intro hyb
    have hlt := S.lower b hb y hanc
    rw [hyb] at hlt
    exact lt_irrefl _ hlt
  have hyl : y ∈ l.map VerifiedBlock.reference := by
    by_contra hnot
    have hmem := mem_lacking.mpr ⟨hanc, hpos, hnot⟩
    rw [hlack] at hmem
    cases hmem
  obtain ⟨t', hget', hblock', hy'⟩ := ht.waits_storeWithChildren htget hy hyb
  refine ⟨_, t', y, hget', hy', ?_, ?_⟩
  · rw [List.map_append]
    exact List.mem_append_left _ hyl
  · rw [hblock', htb]
    exact noRetry_of_complete r (lacking_eq_nil_of_append hlack)

theorem Stuck.acceptOne (h : Stuck l (b :: r) m) (ht : Tracks genesis l m)
    (hl : ∀ x ∈ l, x ∈ S.blocks) (hb : b ∈ S.blocks) :
    Stuck (l ++ [b]) r (m.acceptOne b).manager := by
  obtain ⟨k, s, a, hs, ha, hknown, hretry⟩ := h
  have hgrow : a ∈ (l ++ [b]).map VerifiedBlock.reference := by
    rw [List.map_append]
    exact List.mem_append_left _ hknown
  rcases ht.acceptOne_cases S hb with ⟨-, hstep⟩ | ⟨-, hlack, hstep⟩ | ⟨hnew, hlack, hstep⟩
  · rw [hstep]
    exact ⟨k, s, a, hs, ha, hgrow, hretry.tail⟩
  · rw [hstep]
    have hk : k ≠ b.reference := by
      intro hk
      rw [hk] at hs
      rw [ht.block_eq S hl hb hs] at hretry
      have hnil := hretry [] r rfl
      rw [List.append_nil] at hnil
      exact hlack hnil
    refine ⟨k, s, a, ?_, ha, hgrow, hretry.tail⟩
    rw [BlockManager.suspend, OrdMap.get?_insert, if_neg hk]
    exact hs
  · rw [hstep]
    by_cases hab : a = b.reference
    · exact ht.stuck_storeWithChildren S hl hb hnew hlack (hab ▸ hknown)
    · obtain ⟨s', hget', hblock', ha'⟩ := ht.waits_storeWithChildren hs ha hab
      refine ⟨k, s', a, hget', ha', hgrow, ?_⟩
      rw [hblock']
      exact hretry.tail

/-- A delivered block that lacks an ancestor is suspended. -/
theorem Tracks.suspended_of_lacking (h : Tracks genesis l m) (hl : ∀ x ∈ l, x ∈ S.blocks)
    (hb : b ∈ l) (hlack : lacking l b ≠ []) :
    ∃ s, m.suspendedBlocks.get? b.reference = some s ∧ s.block = b := by
  rcases (h.known b.reference).mpr (List.mem_map_of_mem hb) with hstored | hsusp
  · obtain ⟨y, hy⟩ := OrdMap.contains_iff.mp hstored
    obtain ⟨hmem, hnil⟩ := h.stored _ y hy
    rw [S.identified y (hl y hmem) b (hl b hb) (DagState.blocks_reference hy)] at hnil
    exact absurd hnil hlack
  · obtain ⟨s, hs⟩ := OrdMap.contains_iff.mp hsusp
    exact ⟨s, hs, h.block_eq S hl (hl b hb) hs⟩

/-- An awaited ancestor that arrives incomplete leaves its child stuck. -/
theorem stuck_of_incomplete {x : VerifiedBlock} (h : Tracks genesis l m) (hl : ∀ x ∈ l, x ∈ S.blocks)
    (hb : b ∈ l) (hx : x ∈ S.blocks) (hawaited : x.reference ∈ lacking l b) (hlack : lacking l x ≠ [])
    (hretry : NoRetry (l ++ [x]) r b) : Stuck (l ++ [x]) r (m.acceptOne x).manager := by
  obtain ⟨hanc, -, hfirst⟩ := mem_lacking.mp hawaited
  obtain ⟨s, hs, hsb⟩ := h.suspended_of_lacking S hl hb (List.ne_nil_of_mem hawaited)
  have hwait := (h.waiting _ s hs).2 _ (hsb.symm ▸ hawaited)
  have hne : b.reference ≠ x.reference := by
    intro heq
    have hlt := S.lower b (hl b hb) _ hanc
    rw [← heq] at hlt
    exact lt_irrefl _ hlt
  rcases h.acceptOne_cases S hx with ⟨hstored, -⟩ | ⟨-, -, hstep⟩ | ⟨-, hnil, -⟩
  · exact absurd ((h.known _).mp (.inl hstored)) hfirst
  · rw [hstep]
    refine ⟨b.reference, s, x.reference, ?_, hwait, ?_, hsb.symm ▸ hretry⟩
    · rw [BlockManager.suspend, OrdMap.get?_insert, if_neg hne]
      exact hs
    · rw [List.map_append]
      exact List.mem_append_right _ (List.mem_singleton_self _)
  · exact absurd hnil hlack

theorem Stuck.acceptEach (h : Stuck l r m) (ht : Tracks genesis l m) (hl : ∀ x ∈ l, x ∈ S.blocks)
    (hr : ∀ x ∈ r, x ∈ S.blocks) : ∃ k, (m.acceptEach r).manager.suspendedBlocks.contains k = true := by
  induction r generalizing l m with
  | nil =>
    obtain ⟨k, s, -, hs, -⟩ := h
    exact ⟨k, OrdMap.contains_iff.mpr ⟨s, hs⟩⟩
  | cons b rest ih =>
    have hb : b ∈ S.blocks := hr b (List.mem_cons_self ..)
    have hl' : ∀ x ∈ l ++ [b], x ∈ S.blocks :=
      List.forall_mem_append.mpr ⟨hl, List.forall_mem_singleton.mpr hb⟩
    exact ih (h.acceptOne S ht hl hb) (ht.acceptOne S hb) hl' fun x hx => hr x (List.mem_cons_of_mem _ hx)

end

/-- An ancestor that first arrives at `l₁` and had not arrived before `b` arrives after it. -/
theorem exists_between {l l₁ l₂ r : List VerifiedBlock} {b x : VerifiedBlock}
    (hsplit : l ++ b :: r = l₁ ++ x :: l₂) (hx : x ∉ l) (hne : x ≠ b) :
    ∃ mid, l₁ = l ++ b :: mid ∧ r = mid ++ x :: l₂ := by
  rcases List.append_eq_append_iff.mp hsplit with ⟨t, hl₁, hbr⟩ | ⟨t, hl, hxl⟩
  · cases t with
    | nil => exact absurd (List.cons.inj hbr).1.symm hne
    | cons y mid =>
      obtain ⟨rfl, hr⟩ := List.cons.inj hbr
      exact ⟨mid, hl₁, hr⟩
  · cases t with
    | nil => exact absurd (List.cons.inj hxl).1 hne
    | cons y t =>
      obtain ⟨rfl, -⟩ := List.cons.inj hxl
      exact absurd (hl ▸ List.mem_append_right _ (List.mem_cons_self ..)) hx

section
variable {sha3 : List UInt8 → BlockDigest} {c : Committee} (S : BlockSet c (DagState.genesisStore sha3 c))
  {p : List VerifiedBlock}

/-- If an awaited ancestor arrives incomplete, the run ends with a suspended block. -/
theorem exists_suspended_of_not_timely (hp : ∀ x ∈ p, x ∈ S.blocks) (h : ¬ Timely p) :
    ∃ k, ((new (DagState.new sha3 c)).acceptEach p).manager.suspendedBlocks.contains k = true := by
  unfold Timely at h
  push Not at h
  obtain ⟨l, b, r, hsplit, hretry, x, l₁, l₂, hawaited, hsplit', hfirst, hincomplete⟩ := h
  obtain ⟨hanc, hpos, hnot⟩ := mem_lacking.mp hawaited
  have hb : b ∈ S.blocks := hp b (by rw [hsplit]; simp)
  have hx : x ∈ S.blocks := hp x (by rw [hsplit']; simp)
  have hround : x.reference.round < b.reference.round := S.lower b hb _ hanc
  have hne : x.reference ≠ b.reference := fun heq => by rw [heq] at hround; exact lt_irrefl _ hround
  obtain ⟨mid, rfl, rfl⟩ := exists_between (hsplit ▸ hsplit')
    (fun hxl => hnot (List.mem_map_of_mem hxl)) (fun hxb => hne (congrArg _ hxb))
  have hl₁ : ∀ y ∈ l ++ b :: mid, y ∈ S.blocks := fun y hy => hp y (by
    rw [hsplit']
    exact List.mem_append_left _ hy)
  have ht := (tracks_new sha3 c).acceptEach S hl₁
  rw [List.nil_append] at ht
  have hlate : NoRetry (l ++ b :: mid ++ [x]) l₂ b := by
    intro l' r' hl₂
    have hnil := hretry (mid ++ x :: l') r' (by rw [hl₂]; simp)
    simpa using hnil
  have hstuck := stuck_of_incomplete S ht hl₁ (by simp) hx (mem_lacking.mpr ⟨hanc, hpos, hfirst⟩)
    hincomplete hlate
  have hl₁x : ∀ y ∈ l ++ b :: mid ++ [x], y ∈ S.blocks := by
    intro y hy
    rcases List.mem_append.mp hy with hy | hy
    · exact hl₁ y hy
    · exact List.mem_singleton.mp hy ▸ hx
  obtain ⟨k, hk⟩ := hstuck.acceptEach S (ht.acceptOne S hx) hl₁x fun y hy => hp y (by
    rw [hsplit']
    simp [hy])
  refine ⟨k, ?_⟩
  rw [hsplit', (acceptEach_append _ (l ++ b :: mid) (x :: l₂)).2]
  exact hk

/-- A timely delivery of the whole set meets no stranger, and ends with nothing suspended
and each block accepted once. -/
theorem settled_of_timely (hp : ∀ x, x ∈ p ↔ x ∈ S.blocks) (h : Timely p) :
    let o := (new (DagState.new sha3 c)).acceptEach p
    (DagState.new sha3 c).stranger? o.accepted = none ∧
      (∀ r b, o.manager.dagState.blocks.map.get? r = some b ↔ b ∈ S.blocks ∧ b.reference = r) ∧
      (∀ b ∈ S.blocks, o.accepted.count b = 1) ∧ o.manager.suspendedBlocks = ∅ := by
  intro o
  have ht : Tracks _ p o.manager := (tracks_new sha3 c).acceptEach S fun x hx => (hp x).mp hx
  have hon : OnTime [] p (new (DagState.new sha3 c)) := by
    intro k s hs
    cases hs
  obtain ⟨hend, hnodup, -⟩ := hon.acceptEach S h (tracks_new sha3 c) (by simp)
    fun x hx => (hp x).mp hx
  have hcomplete : ∀ b ∈ S.blocks, lacking p b = [] := by
    intro b hb
    refine List.eq_nil_iff_forall_not_mem.mpr fun a ha => ?_
    obtain ⟨hanc, hpos, hnot⟩ := mem_lacking.mp ha
    obtain ⟨x, hx, rfl⟩ := S.closed b hb a hanc hpos
    exact hnot (List.mem_map_of_mem ((hp x).mpr hx))
  have hempty : ∀ k, o.manager.suspendedBlocks.get? k = none := by
    intro k
    by_contra hne
    obtain ⟨s, hs⟩ := Option.ne_none_iff_exists'.mp hne
    have hsb : s.block ∈ S.blocks := (hp _).mp (ht.waiting k s hs).1
    have hnil := hcomplete _ hsb
    obtain ⟨a, ha⟩ := List.exists_mem_of_ne_nil _ (ht.registered.waits _ s hs)
    have hmem := (hend k s hs).2.2 (noRetry_of_complete [] hnil) a ha
    rw [List.nil_append, hnil] at hmem
    cases hmem
  have hstored : ∀ b ∈ S.blocks, o.manager.dagState.blocks.map.get? b.reference = some b := by
    intro b hb
    rcases (ht.known b.reference).mpr (List.mem_map_of_mem ((hp b).mpr hb)) with hin | hsusp
    · obtain ⟨x, hx⟩ := OrdMap.contains_iff.mp hin
      have hxS : x ∈ S.blocks := (hp x).mp (ht.stored _ x hx).1
      rw [hx, S.identified x hxS b hb (DagState.blocks_reference hx)]
    · rw [OrdMap.contains, hempty] at hsusp
      cases hsusp
  have hget : ∀ r b, o.manager.dagState.blocks.map.get? r = some b ↔ b ∈ o.accepted ∧ b.reference = r := by
    intro r b
    rw [acceptEach_dagState, DagState.blocks_acceptBlocks hnodup]
    refine ⟨fun hb => hb.resolve_right fun hb => ?_, .inl⟩
    cases hb.2
  refine ⟨DagState.stranger?_eq_none fun b hb => ?_,
    fun r b => ⟨fun hb => ?_, fun hb => hb.2 ▸ hstored b hb.1⟩, fun b hb => ?_, ?_⟩
  · exact S.member b ((hp b).mp (ht.stored _ b ((hget _ b).mpr ⟨hb, rfl⟩)).1)
  · exact ⟨(hp b).mp (ht.stored r b hb).1, DagState.blocks_reference hb⟩
  · have hmem : b ∈ o.accepted := ((hget _ b).mp (hstored b hb)).1
    exact List.count_eq_one_of_mem (List.Nodup.of_map _ hnodup) hmem
  · exact OrdMap.ext_get? fun k => by rw [hempty k]; rfl

/-- The set is delivered: every call returned, the set is what the DAG holds, each block was
returned once, and nothing is suspended. -/
structure Settled (run : List VerifiedBlock × BlockManager) : Prop where
  returned : (DagState.new sha3 c).stranger? run.1 = none
  stored : ∀ r b, run.2.dagState.blocks.map.get? r = some b ↔ b ∈ S.blocks ∧ b.reference = r
  once : ∀ b ∈ S.blocks, run.1.count b = 1
  none_suspended : run.2.suspendedBlocks = ∅

theorem mem_processed {batches : List (List VerifiedBlock)} {b : VerifiedBlock} :
    b ∈ processed batches ↔ ∃ batch ∈ batches, b ∈ batch := by
  simp only [processed, sortByRound, List.mem_flatMap, List.mem_insertionSort]

/-- **Delivery order.** Calls that deliver exactly the blocks of a closed set by members settle
it if and only if the deliveries are timely. -/
theorem settled_iff_timely (batches : List (List VerifiedBlock))
    (hall : ∀ b, (∃ batch ∈ batches, b ∈ batch) ↔ b ∈ S.blocks) :
    Settled S ((new (DagState.new sha3 c)).acceptAll batches) ↔ Timely (processed batches) := by
  have hp : ∀ x, x ∈ processed batches ↔ x ∈ S.blocks := fun x => mem_processed.trans (hall x)
  rw [acceptAll_eq]
  constructor
  · intro hsettled
    by_contra htimely
    obtain ⟨k, hk⟩ := exists_suspended_of_not_timely S (fun x hx => (hp x).mp hx) htimely
    have hnone := hsettled.none_suspended
    rw [hnone] at hk
    cases hk
  · intro htimely
    obtain ⟨hreturned, hstored, honce, hnone⟩ := settled_of_timely S hp htimely
    exact ⟨hreturned, hstored, honce, hnone⟩

end

/-- The first three links of a chain, as a closed set. -/
def links : BlockSet .single (DagState.genesisStore (fun _ => 0) .single) where
  blocks := {link 0, link 1, link 2}
  member := by decide +kernel
  identified := by decide +kernel
  lower := by decide +kernel
  closed := by decide +kernel
  proposal := by decide +kernel

/-- Delivered with the second link first, the chain of three settles. -/
theorem settled_links : (∀ b, (∃ batch ∈ [[link 1], [link 0], [link 2]], b ∈ batch) ↔ b ∈ links.blocks) ∧
    Settled links ((new (DagState.new (fun _ => 0) (Committee.equal 0))).acceptAll
      [[link 1], [link 0], [link 2]]) := by
  have hall : ∀ b, (∃ batch ∈ [[link 1], [link 0], [link 2]], b ∈ batch) ↔ b ∈ links.blocks := by
    intro b
    simp only [links, List.mem_cons, List.not_mem_nil, or_false, exists_eq_or_imp, exists_eq_left,
      Finset.mem_insert, Finset.mem_singleton]
    tauto
  refine ⟨hall, (settled_iff_timely links _ hall).mpr ?_⟩
  have hp : processed [[link 1], [link 0], [link 2]] = [link 1, link 0, link 2] := by decide +kernel
  rw [hp]
  intro l b r hsplit _ x l₁ l₂ hawaited hsplit' _
  have hb : b ∈ [link 1, link 0, link 2] := by rw [hsplit]; simp
  have hx : x ∈ [link 1, link 0, link 2] := by rw [hsplit']; simp
  obtain ⟨hanc, hpos, hnot⟩ := mem_lacking.mp hawaited
  simp only [List.mem_cons, List.not_mem_nil, or_false] at hb hx
  rcases hx with rfl | rfl | rfl
  · -- only the third link lists the second, and arrives after it
    have hb2 : b = link 2 := by
      rcases hb with rfl | rfl | rfl
      · exact absurd hanc (by decide)
      · exact absurd hanc (by decide)
      · rfl
    subst hb2
    cases l with
    | nil => exact absurd (List.cons.inj hsplit).1 (by decide)
    | cons y l => exact absurd (by rw [← (List.cons.inj hsplit).1]; exact List.mem_cons_self ..) hnot
  · rfl
  · exact absurd hanc (by rcases hb with rfl | rfl | rfl <;> decide)

/-- A chain of three delivered newest first: the last link is never accepted. -/
theorem not_settled_newest_first :
    ¬ Settled links ((new (DagState.new (fun _ => 0) (Committee.equal 0))).acceptAll
      [[link 2], [link 1], [link 0]]) := by
  intro h
  have hnone := h.none_suspended
  exact absurd hnone (by decide +kernel)

end BlockManager

end DualOptimistic.Consensus
