import DualOptimistic.Data.Encoding
import DualOptimistic.Consensus.Types

/-! What the bytes under a digest say of the block.

The header fields have fixed widths, a transaction comes after its length and the transactions
after their number, so all these can be read back. The ancestors come without their number, and
of each only its digest: two blocks share their bytes if their references differ in rounds or
authors only, and if the transaction bytes of one read as further ancestors of the other. These
are all such pairs (`preimage_eq_iff`). -/
namespace DualOptimistic.Consensus
open Data

namespace Block

/-- The fields are in the ranges of their types, and the lengths in that of the `u32` they are
written as. -/
structure InRange (b : Block) : Prop where
  author_lt : b.author < u32Size
  epoch_lt : b.epoch < u64Size
  timestamp_lt : b.timestampMs < u64Size
  count_lt : b.transactions.length < u32Size
  length_lt : ∀ tx ∈ b.transactions, tx.bytes.length < u32Size

def digests (b : Block) : List BlockDigest := b.ancestors.map BlockRef.digest

/-- The bytes of the transactions, after those of the ancestors. -/
def transactionBytes (b : Block) : List UInt8 :=
  leBytes 4 b.transactions.length ++ b.transactions.flatMap fun tx => leBytes 4 tx.bytes.length ++ tx.bytes

structure SameHeader (b b' : Block) : Prop where
  round : b.round = b'.round
  author : b.author = b'.author
  epoch : b.epoch = b'.epoch
  timestampMs : b.timestampMs = b'.timestampMs

/-- The blocks differ in the rounds or authors of their references only. -/
structure Relabelled (b b' : Block) : Prop where
  digests : b.digests = b'.digests
  transactions : b.transactions = b'.transactions
  ancestors : b.ancestors ≠ b'.ancestors

/-- `b'` has all ancestors of `b` and more, and the transaction bytes of `b` are the digests of
these and then the transaction bytes of `b'`. -/
def Spills (b b' : Block) : Prop :=
  ∃ more, more ≠ [] ∧ b'.digests = b.digests ++ more ∧
    b.transactionBytes = more.flatMap BlockDigest.bytes ++ b'.transactionBytes

/-- Blocks of one header that are relabelled, or one of which spills into the other. -/
structure Confusable (b b' : Block) : Prop where
  header : b.SameHeader b'
  sections : b.Relabelled b' ∨ b.Spills b' ∨ b'.Spills b

end Block

/-! ### Numbers and digests -/

theorem length_leBytes (width n : Nat) : (leBytes width n).length = width := by
  induction width generalizing n with
  | zero => rfl
  | succ width ih => exact congrArg (· + 1) (ih _)

theorem leBytes_inj {width n m : Nat} (hn : n < 256 ^ width) (hm : m < 256 ^ width)
    (h : leBytes width n = leBytes width m) : n = m := by
  induction width generalizing n m with
  | zero =>
    rw [Nat.lt_one_iff.mp hn, Nat.lt_one_iff.mp hm]
  | succ width ih =>
    obtain ⟨hlow, hhigh⟩ := List.cons.inj h
    have hmod : n % 256 = m % 256 := by
      have := congrArg UInt8.toNat hlow
      rwa [UInt8.toNat_ofNat', UInt8.toNat_ofNat'] at this
    rw [pow_succ] at hn hm
    have hdiv := ih (Nat.div_lt_of_lt_mul (by rwa [mul_comm])) (Nat.div_lt_of_lt_mul (by rwa [mul_comm])) hhigh
    omega

theorem leBytes_selfDelimiting (width : Nat) : SelfDelimiting (leBytes width) (· < 256 ^ width) :=
  .of_length (length_leBytes width) fun _ _ hn hm h => leBytes_inj hn hm h

theorem digestBytes_selfDelimiting : SelfDelimiting BlockDigest.bytes fun _ => True := by
  apply SelfDelimiting.of_length
  · intro d
    rw [BlockDigest.bytes, List.length_reverse]
    exact length_leBytes 32 _
  · intro d d' _ _ h
    have hbound : ∀ d : BlockDigest, d.toNat < 256 ^ 32 := fun d => d.isLt
    exact BitVec.eq_of_toNat_eq (leBytes_inj (hbound d) (hbound d') (List.reverse_injective h))

/-! ### Blocks -/

namespace Block
variable {b b' : Block}

theorem preimage_eq_sections (b : Block) :
    b.preimage = leBytes 4 b.round ++ (leBytes 4 b.author ++ (leBytes 8 b.epoch ++ (leBytes 8 b.timestampMs ++
      (b.digests.flatMap BlockDigest.bytes ++ b.transactionBytes)))) := by
  simp only [preimage, transactionBytes, digests, List.append_assoc, List.flatMap_map]

/-- The transactions can be read back. -/
theorem transactionBytes_inj (h : b.InRange) (h' : b'.InRange) :
    b.transactionBytes = b'.transactionBytes ↔ b.transactions = b'.transactions := by
  have hnumber : SelfDelimiting (leBytes 4) (· < u32Size) := leBytes_selfDelimiting 4
  have htx : SelfDelimiting (fun tx : Transaction => leBytes 4 tx.bytes.length ++ tx.bytes)
      (fun tx => tx.bytes.length < u32Size) :=
    hnumber.prefixed.comp fun tx tx' heq => (by cases tx; cases tx'; exact congrArg _ heq)
  constructor
  · intro heq
    have hall := (hnumber.counted htx) ⟨h.count_lt, h.length_lt⟩ ⟨h'.count_lt, h'.length_lt⟩ (congrArg (· ++ []) heq)
    exact hall.1
  · intro heq
    rw [transactionBytes, transactionBytes, heq]

/-- The header can be read back. -/
theorem preimage_eq_iff_sections (h : b.InRange) (h' : b'.InRange) :
    b.preimage = b'.preimage ↔ b.SameHeader b' ∧
      b.digests.flatMap BlockDigest.bytes ++ b.transactionBytes =
        b'.digests.flatMap BlockDigest.bytes ++ b'.transactionBytes := by
  rw [preimage_eq_sections, preimage_eq_sections]
  constructor
  · intro heq
    obtain ⟨hround, heq⟩ := leBytes_selfDelimiting 4 b.round_lt b'.round_lt heq
    obtain ⟨hauthor, heq⟩ := leBytes_selfDelimiting 4 h.author_lt h'.author_lt heq
    obtain ⟨hepoch, heq⟩ := leBytes_selfDelimiting 8 h.epoch_lt h'.epoch_lt heq
    obtain ⟨htimestamp, heq⟩ := leBytes_selfDelimiting 8 h.timestamp_lt h'.timestamp_lt heq
    exact ⟨⟨hround, hauthor, hepoch, htimestamp⟩, heq⟩
  · rintro ⟨⟨hround, hauthor, hepoch, htimestamp⟩, heq⟩
    rw [hround, hauthor, hepoch, htimestamp, heq]

/-- **Blocks with the same bytes** have one header, and the same digests and transactions, or one
spills into the other. -/
theorem preimage_eq_iff (h : b.InRange) (h' : b'.InRange) :
    b.preimage = b'.preimage ↔ b.SameHeader b' ∧
      (b.digests = b'.digests ∧ b.transactions = b'.transactions ∨ b.Spills b' ∨ b'.Spills b) := by
  rw [preimage_eq_iff_sections h h', digestBytes_selfDelimiting.flatMap_append_eq_iff]
  refine and_congr_right fun _ => ?_
  constructor
  · rintro (⟨more, hdigests, hbytes⟩ | ⟨more, hdigests, hbytes⟩)
    · by_cases hmore : more = []
      · subst hmore
        rw [List.append_nil] at hdigests
        exact .inl ⟨hdigests.symm, (transactionBytes_inj h h').mp hbytes⟩
      · exact .inr (.inl ⟨more, hmore, hdigests, hbytes⟩)
    · by_cases hmore : more = []
      · subst hmore
        rw [List.append_nil] at hdigests
        exact .inl ⟨hdigests, ((transactionBytes_inj h' h).mp hbytes).symm⟩
      · exact .inr (.inr ⟨more, hmore, hdigests, hbytes⟩)
  · rintro (⟨hdigests, htxs⟩ | ⟨more, -, hdigests, hbytes⟩ | ⟨more, -, hdigests, hbytes⟩)
    · refine .inl ⟨[], ?_, (transactionBytes_inj h h').mpr htxs⟩
      rw [List.append_nil, hdigests]
    · exact .inl ⟨more, hdigests, hbytes⟩
    · exact .inr ⟨more, hdigests, hbytes⟩

theorem SameHeader.eq (h : b.SameHeader b') (hancestors : b.ancestors = b'.ancestors)
    (htxs : b.transactions = b'.transactions) : b = b' := by
  obtain ⟨hround, hauthor, hepoch, htimestamp⟩ := h
  cases b
  cases b'
  simp_all

theorem Spills.ancestors_ne (h : b.Spills b') : b.ancestors ≠ b'.ancestors := by
  obtain ⟨more, hmore, hdigests, -⟩ := h
  intro heq
  rw [digests, digests, heq] at hdigests
  exact hmore (List.self_eq_append_right.mp hdigests)

theorem Confusable.ancestors_ne (h : b.Confusable b') : b.ancestors ≠ b'.ancestors := by
  rcases h.sections with hrelabelled | hspills | hspills
  · exact hrelabelled.ancestors
  · exact hspills.ancestors_ne
  · exact hspills.ancestors_ne.symm

/-- **The bytes under a digest identify the block**, for any two blocks in the ranges of their
fields, exactly if the two are not confusable. -/
theorem preimage_identifies_iff (h : b.InRange) (h' : b'.InRange) :
    (b.preimage = b'.preimage → b = b') ↔ ¬ b.Confusable b' := by
  rw [preimage_eq_iff h h']
  constructor
  · intro hidentifies hconfusable
    have heq : b = b' := by
      apply hidentifies
      refine ⟨hconfusable.header, ?_⟩
      rcases hconfusable.sections with hrelabelled | hspills
      · exact .inl ⟨hrelabelled.digests, hrelabelled.transactions⟩
      · exact .inr hspills
    exact hconfusable.ancestors_ne (congrArg ancestors heq)
  · rintro hnot ⟨hheader, hsections⟩
    rcases hsections with ⟨hdigests, htxs⟩ | hspills
    · by_contra hne
      have hancestors : b.ancestors ≠ b'.ancestors := fun heq => hne (hheader.eq heq htxs)
      exact hnot ⟨hheader, .inl ⟨hdigests, htxs, hancestors⟩⟩
    · exact absurd ⟨hheader, .inr hspills⟩ hnot

/-- Two blocks that differ in their transactions. -/
theorem preimage_identifies_transactions :
    let b : Block := { round := 2, author := 0, ancestors := [.new 1 0 7], transactions := [⟨[1]⟩, ⟨[]⟩] }
    let b' : Block := { round := 2, author := 0, ancestors := [.new 1 0 7], transactions := [⟨[]⟩, ⟨[1]⟩] }
    b.InRange ∧ b'.InRange ∧ ¬ b.Confusable b' ∧ (b.preimage = b'.preimage → b = b') := by
  intro b b'
  have h : b.InRange := ⟨by decide, by decide, by decide, by decide, by decide⟩
  have h' : b'.InRange := ⟨by decide, by decide, by decide, by decide, by decide⟩
  have hnot : ¬ b.Confusable b' := fun hconfusable => hconfusable.ancestors_ne rfl
  exact ⟨h, h', hnot, (preimage_identifies_iff h h').mpr hnot⟩

/-- Every block that lists an ancestor is confusable: the author of the reference is free. -/
theorem exists_confusable (h : b.InRange) (hne : b.ancestors ≠ []) : ∃ b', b'.InRange ∧ b.Confusable b' := by
  cases hancestors : b.ancestors with
  | nil => exact absurd hancestors hne
  | cons a rest =>
    let other : AuthorityIndex := if a.author = 0 then 1 else 0
    have hother : a.author ≠ other := by
      unfold other
      split_ifs with hzero
      · rw [hzero]
        exact Nat.zero_ne_one
      · exact hzero
    refine ⟨{ b with ancestors := { a with author := other } :: rest }, ⟨h.1, h.2, h.3, h.4, h.5⟩,
      ⟨rfl, rfl, rfl, rfl⟩, .inl ⟨?_, rfl, ?_⟩⟩
    · rw [digests, digests, hancestors]
      rfl
    · rw [hancestors]
      exact fun heq => hother (congrArg BlockRef.author (List.cons.inj heq).1)

/-- A reference with another round and author, and a transaction that reads as an ancestor: one
of 28 bytes, after its number 1 and its length 28, for a digest that starts with these. -/
theorem preimage_collisions :
    let b : Block := { round := 2, author := 0, ancestors := [.new 1 0 7] }
    let b' : Block := { round := 2, author := 0, ancestors := [.new 0 3 7] }
    let t : Block := { round := 1, author := 0, transactions := [⟨List.replicate 28 0⟩] }
    let t' : Block := { round := 1, author := 0, ancestors := [.new 0 0 0x010000001c000000000000000000000000000000000000000000000000000000] }
    b.InRange ∧ b'.InRange ∧ ¬ (b.preimage = b'.preimage → b = b') ∧
      t.InRange ∧ t'.InRange ∧ ¬ (t.preimage = t'.preimage → t = t') := by
  intro b b' t t'
  have hsame : b.preimage = b'.preimage := by decide +kernel
  have hsame' : t.preimage = t'.preimage := by decide +kernel
  refine ⟨⟨by decide, by decide, by decide, by decide, by decide⟩,
    ⟨by decide, by decide, by decide, by decide, by decide⟩, fun h => ?_,
    ⟨by decide, by decide, by decide, by decide, by decide⟩,
    ⟨by decide, by decide, by decide, by decide, by decide⟩, fun h => ?_⟩
  · exact absurd (h hsame) (by decide)
  · exact absurd (h hsame') (by decide)

end Block

end DualOptimistic.Consensus
