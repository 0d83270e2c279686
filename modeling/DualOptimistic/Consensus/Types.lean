import Mathlib.Algebra.GroupWithZero.Nat
import DualOptimistic.Data.OrdMap

/-! Blocks, references and slots (`consensus/src/types.rs`).

A block is named by its reference: round, author and digest. Rounds are `u32` in
the source; here they are natural numbers, and a reference or a block carries
the bound. A digest is its 32 bytes read as a big-endian number, whose order is
the order of the byte arrays. The hash is not in the repository: it is a
parameter `sha3` wherever a digest is computed. -/
namespace DualOptimistic.Consensus

/-- One past the largest `u32`. -/
def u32Size : Nat := 2 ^ 32

/-- One past the largest `u64`. -/
def u64Size : Nat := 2 ^ 64

abbrev Round := Nat
abbrev AuthorityIndex := Nat
abbrev Epoch := Nat
abbrev BlockTimestampMs := Nat

/-- Round 0 is genesis; real proposals start at round 1. -/
def genesisRound : Round := 0

/-- 32-byte digest of a block. -/
abbrev BlockDigest := BitVec 256

def BlockDigest.min : BlockDigest := 0
def BlockDigest.max : BlockDigest := BitVec.allOnes 256

/-! ### References and slots -/

/-- Uniquely identifies a block by (round, author, digest). -/
structure BlockRef where
  round : Round
  author : AuthorityIndex
  digest : BlockDigest
  round_lt : round < u32Size := by decide

namespace BlockRef

/-- The derived order compares round, then author, then digest. -/
def key (r : BlockRef) : Nat ×ₗ Nat ×ₗ Nat := toLex (r.round, toLex (r.author, r.digest.toNat))

theorem key_injective : Function.Injective key := by
  rintro ⟨round, author, digest, _⟩ ⟨round', author', digest', _⟩ h
  simp only [key, EmbeddingLike.apply_eq_iff_eq, Prod.mk.injEq] at h
  obtain ⟨rfl, rfl, hd⟩ := h
  rw [BitVec.eq_of_toNat_eq hd]

instance : LinearOrder BlockRef := LinearOrder.lift' key key_injective

instance lawfulBEq : LawfulBEq BlockRef := inferInstance

/-- A reference from a round that may not fit: it wraps, as `u32` arithmetic does. -/
def new (round : Round) (author : AuthorityIndex) (digest : BlockDigest) : BlockRef :=
  ⟨round % u32Size, author, digest, Nat.mod_lt _ (by decide)⟩

theorem le_iff {a b : BlockRef} :
    a ≤ b ↔ a.round < b.round ∨ a.round = b.round ∧
      (a.author < b.author ∨ a.author = b.author ∧ a.digest.toNat ≤ b.digest.toNat) := by
  show key a ≤ key b ↔ _
  simp only [key, Prod.Lex.le_iff, ofLex_toLex]

theorem lt_iff {a b : BlockRef} :
    a < b ↔ a.round < b.round ∨ a.round = b.round ∧
      (a.author < b.author ∨ a.author = b.author ∧ a.digest.toNat < b.digest.toNat) := by
  show key a < key b ↔ _
  simp only [key, Prod.Lex.lt_iff, ofLex_toLex]

theorem lt_of_round_lt {a b : BlockRef} (h : a.round < b.round) : a < b := lt_iff.mpr (.inl h)

theorem round_le_of_le {a b : BlockRef} (h : a ≤ b) : a.round ≤ b.round := by
  rcases le_iff.mp h with h | h
  · exact h.le
  · exact h.1.le

end BlockRef

/-- (round, authority) position in the DAG. One slot may hold several blocks if
the authority equivocates. -/
structure Slot where
  round : Round
  authority : AuthorityIndex
deriving DecidableEq

def BlockRef.slot (r : BlockRef) : Slot := ⟨r.round, r.author⟩

/-! ### Blocks -/

/-- Raw transaction bytes. -/
structure Transaction where
  bytes : List UInt8
deriving DecidableEq

/-- Core block data produced by one authority at one round. -/
structure Block where
  epoch : Epoch := 0
  round : Round
  author : AuthorityIndex
  timestampMs : BlockTimestampMs := 0
  ancestors : List BlockRef := []
  transactions : List Transaction := []
  round_lt : round < u32Size := by decide
deriving DecidableEq

def Block.slot (b : Block) : Slot := ⟨b.round, b.author⟩

/-- Little-endian bytes of a number, as `to_le_bytes` of a `width`-byte integer. -/
def leBytes : Nat → Nat → List UInt8
  | 0, _ => []
  | width + 1, n => UInt8.ofNat n :: leBytes width (n / 256)

/-- The 32 bytes of a digest. -/
def BlockDigest.bytes (d : BlockDigest) : List UInt8 := (leBytes 32 d.toNat).reverse

/-- What `compute_digest` feeds to the hash. -/
def Block.preimage (b : Block) : List UInt8 :=
  leBytes 4 b.round ++ leBytes 4 b.author ++ leBytes 8 b.epoch ++ leBytes 8 b.timestampMs ++
    b.ancestors.flatMap (fun a => a.digest.bytes) ++
    leBytes 4 b.transactions.length ++
    b.transactions.flatMap (fun tx => leBytes 4 tx.bytes.length ++ tx.bytes)

/-- A block that has been validated, with its digest. -/
structure VerifiedBlock where
  block : Block
  digest : BlockDigest
deriving DecidableEq

namespace VerifiedBlock

def computeDigest (sha3 : List UInt8 → BlockDigest) (block : Block) : BlockDigest :=
  sha3 block.preimage

def newVerified (sha3 : List UInt8 → BlockDigest) (block : Block) : VerifiedBlock :=
  ⟨block, computeDigest sha3 block⟩

def reference (b : VerifiedBlock) : BlockRef :=
  ⟨b.block.round, b.block.author, b.digest, b.block.round_lt⟩

def round (b : VerifiedBlock) : Round := b.block.round
def author (b : VerifiedBlock) : AuthorityIndex := b.block.author
def slot (b : VerifiedBlock) : Slot := b.block.slot
def timestampMs (b : VerifiedBlock) : BlockTimestampMs := b.block.timestampMs
def ancestors (b : VerifiedBlock) : List BlockRef := b.block.ancestors
def transactions (b : VerifiedBlock) : List Transaction := b.block.transactions

@[simp] theorem reference_round (b : VerifiedBlock) : b.reference.round = b.round := rfl
@[simp] theorem reference_author (b : VerifiedBlock) : b.reference.author = b.author := rfl
@[simp] theorem reference_slot (b : VerifiedBlock) : b.reference.slot = b.slot := rfl

end VerifiedBlock

/-- A chain of single-ancestor blocks by authority 0, the block of round `n + 1`
listing the one of round `n`; the digest is 0. -/
def link (n : Nat) : VerifiedBlock :=
  ⟨{ round := (n + 1) % u32Size, author := 0, round_lt := Nat.mod_lt _ (by decide)
     ancestors := [.new n 0 0] }, 0⟩

end DualOptimistic.Consensus
