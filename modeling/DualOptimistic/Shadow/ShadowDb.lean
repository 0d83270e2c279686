import Mathlib.Algebra.GroupWithZero.Nat
import DualOptimistic.Data.OrdMap

/-! The multi-version shadow database (`shadow-state/src/lib.rs`).

One layer a round, over a canonical database. A layer holds, for every slot, the
value each transaction wrote and the readers of each writer; for every account, the
info each transaction left; and for every transaction, the slot values it read.
The canonical database and the account types come from outside the repository: the
database is any type with the two reads the code uses (`DatabaseRef`), and of an
account only what is read here is kept. -/
namespace DualOptimistic.Shadow
open Data

/-! ### Accounts and slots -/

instance neZero_address : NeZero (2 ^ 160) := ⟨by decide⟩

instance neZero_word : NeZero (2 ^ 256) := ⟨by decide⟩

/-- 20-byte account address. -/
abbrev Address := Fin (2 ^ 160)

/-- 256-bit storage key. -/
abbrev StorageKey := Fin (2 ^ 256)

/-- 256-bit storage value. -/
abbrev StorageValue := Fin (2 ^ 256)

/-- A slot of an account. The source hashes the pair; any order does. -/
abbrev SlotKey := Address ×ₗ StorageKey

def slotKey (address : Address) (slot : StorageKey) : SlotKey := toLex (address, slot)

/-- Index of a transaction within one round. -/
abbrev TxIndex := Nat

abbrev CommitIndex := Nat

structure AccountInfo where
  balance : Fin (2 ^ 256) := 0
  nonce : Nat := 0
  codeHash : Fin (2 ^ 256) := 0
  code : Option (List UInt8) := none
deriving DecidableEq, Inhabited

structure EvmStorageSlot where
  originalValue : StorageValue
  presentValue : StorageValue
deriving DecidableEq

def EvmStorageSlot.isChanged (s : EvmStorageSlot) : Bool := s.originalValue != s.presentValue

structure Account where
  info : AccountInfo
  storage : OrdMap StorageKey EvmStorageSlot
deriving DecidableEq

/-- What one execution touched. -/
abbrev EvmState := OrdMap Address Account

/-- Raw bytes of a signed transaction. -/
structure EthSignedTx where
  bytes : List UInt8
deriving DecidableEq

/-- The canonical database, as far as the shadow database reads it. -/
class DatabaseRef (DB : Type) where
  basicRef : DB → Address → Except String (Option AccountInfo)
  storageRef : DB → Address → StorageKey → Except String StorageValue

/-- A database with nothing in it. -/
structure EmptyDb where

instance : DatabaseRef EmptyDb where
  basicRef _ _ := .ok none
  storageRef _ _ _ := .ok 0

class DatabaseCommit (DB : Type) where
  commit : DB → EvmState → DB

/-- A database that keeps the storage of what it commits. -/
structure InMemoryDb where
  storage : OrdMap SlotKey StorageValue := ∅

instance : DatabaseRef InMemoryDb where
  basicRef _ _ := .ok none
  storageRef db address index := .ok ((db.storage.get? (slotKey address index)).getD 0)

instance : DatabaseCommit InMemoryDb where
  commit db changes :=
    { storage := changes.entries.foldl (fun storage account =>
        account.2.storage.entries.foldl (fun storage slot =>
          storage.insert (slotKey account.1 slot.1) slot.2.presentValue) storage) db.storage }

/-! ### Layers -/

/-- Versioned value stored per slot and transaction. -/
inductive VersionedValue where
  /-- A confirmed storage value. -/
  | data (value : StorageValue)
  /-- The transaction is being re-executed; readers fall back to a prior value. -/
  | pending
  /-- Not written; skipped by the search. -/
  | absent
deriving DecidableEq

namespace VersionedValue

def isAbsent : VersionedValue → Bool
  | absent => true
  | _ => false

def data? : VersionedValue → Option StorageValue
  | data value => some value
  | _ => none

end VersionedValue

/-- All versioned writes of one slot in one round, and the readers of each. -/
structure SlotVersions where
  versions : OrdMap TxIndex VersionedValue := ∅
  readers : OrdMap TxIndex (List TxIndex) := ∅
deriving DecidableEq

inductive LayerStatus where
  | speculative
  | pendingCommit
deriving DecidableEq

/-- One round's speculative state layer. -/
structure RoundLayer where
  commitIndex : CommitIndex
  status : LayerStatus := .speculative
  slotVersions : OrdMap SlotKey SlotVersions := ∅
  accountVersions : OrdMap Address (OrdMap TxIndex AccountInfo) := ∅
  /-- Kept across cascade invalidation for re-execution. -/
  pendingTxs : Option (List EthSignedTx) := none
  /-- The slot values each transaction read from a layer. -/
  txReads : OrdMap TxIndex (OrdMap SlotKey StorageValue) := ∅
deriving DecidableEq

def RoundLayer.new (commitIndex : CommitIndex) : RoundLayer := { commitIndex }

structure ShadowDb (DB : Type) where
  canonical : DB
  layers : OrdMap CommitIndex RoundLayer
  currentTx : TxIndex
  currentCommitIndex : CommitIndex
  coinbase : Address
  lastFinalized : Option CommitIndex

/-! ### Writes -/

/-- The write of `tx` to one slot. -/
def SlotVersions.write (sv : SlotVersions) (tx : TxIndex) (value : StorageValue) : SlotVersions :=
  { versions := sv.versions.insert tx (.data value)
    readers := sv.readers.upsert tx [] id }

namespace RoundLayer

/-- Record one slot of an executed account, if it changed. -/
def recordSlot (tx : TxIndex) (address : Address) (layer : RoundLayer)
    (slot : StorageKey × EvmStorageSlot) : RoundLayer :=
  if slot.2.isChanged then
    { layer with
      slotVersions := layer.slotVersions.upsert (slotKey address slot.1) {}
        (·.write tx slot.2.presentValue) }
  else layer

/-- Record one executed account: its info, unless it is the coinbase, and its slots. -/
def recordAccount (coinbase : Address) (tx : TxIndex) (layer : RoundLayer)
    (account : Address × Account) : RoundLayer :=
  account.2.storage.entries.foldl (recordSlot tx account.1)
    (if account.1 ≠ coinbase then
      { layer with
        accountVersions := layer.accountVersions.upsert account.1 ∅ (·.insert tx account.2.info) }
    else layer)

def recordState (coinbase : Address) (tx : TxIndex) (layer : RoundLayer) (state : EvmState) :
    RoundLayer :=
  state.entries.foldl (recordAccount coinbase tx) layer

end RoundLayer

namespace ShadowDb
variable {DB : Type}

def new (canonical : DB) (coinbase : Address) : ShadowDb DB where
  canonical := canonical
  layers := ∅
  currentTx := 0
  currentCommitIndex := 0
  coinbase := coinbase
  lastFinalized := none

/-- Called by the executor immediately before running each transaction. -/
def setCurrentTx (s : ShadowDb DB) (ci : CommitIndex) (tx : TxIndex) : ShadowDb DB :=
  { s with currentCommitIndex := ci, currentTx := tx }

def ensureLayer (s : ShadowDb DB) (ci : CommitIndex) : ShadowDb DB :=
  { s with layers := s.layers.upsert ci (.new ci) id }

/-- Record the result of executing `tx` in round `ci`. -/
def recordTxExecution (s : ShadowDb DB) (ci : CommitIndex) (tx : TxIndex) (state : EvmState) :
    ShadowDb DB :=
  { s with layers := s.layers.upsert ci (.new ci) (·.recordState s.coinbase tx state) }

/-- Mark `tx` as aborted: its versions become pending, and the readers it had are
drained and returned. -/
def abortTx (s : ShadowDb DB) (ci : CommitIndex) (tx : TxIndex) : List TxIndex × ShadowDb DB :=
  match s.layers.get? ci with
  | none => ([], s)
  | some layer =>
    let notified := layer.slotVersions.values.flatMap fun sv => (sv.readers.get? tx).getD []
    let drained := layer.slotVersions.mapValues fun _ sv =>
      { versions := sv.versions.modify tx fun _ => .pending
        readers := sv.readers.modify tx fun _ => [] }
    ((notified.insertionSort (· ≤ ·)).destutter (· ≠ ·),
      { s with layers := s.layers.insert ci { layer with slotVersions := drained } })

/-- Confirm a re-execution of `tx`: forget what it wrote and read, then write anew. -/
def commitTxExecution (s : ShadowDb DB) (ci : CommitIndex) (tx : TxIndex) (state : EvmState) :
    ShadowDb DB :=
  match s.layers.get? ci with
  | none => s
  | some layer =>
    let cleared : RoundLayer :=
      { layer with
        slotVersions := layer.slotVersions.mapValues fun _ sv =>
          { versions := sv.versions.erase tx, readers := sv.readers.erase tx }
        txReads := layer.txReads.erase tx }
    { s with layers := s.layers.insert ci (cleared.recordState s.coinbase tx state) }

/-! ### Reads -/

/-- The highest-indexed data below `tx`. -/
def readlastInLayer (sv : SlotVersions) (tx : TxIndex) : Option StorageValue :=
  (sv.versions.range (decide <| · < tx)).reverse.findSome? fun e => e.2.data?

/-- The highest-indexed version the reader sees that is not absent: below `tx` in its
own round, any in another. -/
def maxWriter (sv : SlotVersions) (own : Bool) (tx : TxIndex) : Option TxIndex :=
  ((sv.versions.range fun i => !own || decide (i < tx)).reverse.find? fun e => !e.2.isAbsent).map
    Prod.fst

/-- Where a read was answered. -/
structure Found where
  writerCi : CommitIndex
  writerTx : TxIndex
  value : StorageValue
  wasPending : Bool
deriving DecidableEq

/-- What one layer answers, `none` where the search goes on to an older one. A pending
writer ends the search: with the data below it in the same layer, or with zero, which
stands for no value. -/
def readLayer (ci : CommitIndex) (own : Bool) (tx : TxIndex) (sv : SlotVersions) : Option Found :=
  match maxWriter sv own tx with
  | none => none
  | some writer =>
    match sv.versions.get? writer with
    | some (.data value) => some ⟨ci, writer, value, false⟩
    | some .pending => some ⟨ci, writer, (readlastInLayer sv writer).getD 0, true⟩
    | some .absent => none
    | none => none

/-- The search loop of both lookups: the first answer, newest layer first. -/
def searchLayers {α : Type} (layers : OrdMap CommitIndex RoundLayer)
    (answer : CommitIndex → RoundLayer → Option α) : Option α :=
  layers.entries.reverse.findSome? fun e => answer e.1 e.2

def searchStorage (layers : OrdMap CommitIndex RoundLayer) (key : SlotKey) (currentCi : CommitIndex)
    (currentTx : TxIndex) : Option Found :=
  searchLayers layers fun ci layer =>
    (layer.slotVersions.get? key).bind (readLayer ci (ci == currentCi) currentTx)

/-- Whether a found value counts: a zero from a pending writer does not. -/
def Found.answers (f : Found) : Bool := !f.wasPending || f.value != 0

/-- Register the reader with the writer, and the value read with the reader's layer
if there is one. -/
def recordRead (layers : OrdMap CommitIndex RoundLayer) (key : SlotKey) (currentCi : CommitIndex)
    (currentTx : TxIndex) (f : Found) : OrdMap CommitIndex RoundLayer :=
  let registered := layers.modify f.writerCi fun layer =>
    { layer with
      slotVersions := layer.slotVersions.upsert key {} fun sv =>
        { sv with readers := sv.readers.upsert f.writerTx [] (· ++ [currentTx]) } }
  if f.answers then
    registered.modify currentCi fun layer =>
      { layer with txReads := layer.txReads.upsert currentTx ∅ (·.insert key f.value) }
  else registered

/-- READLAST lookup for storage. -/
def readlastStorage (s : ShadowDb DB) (key : SlotKey) (ci : CommitIndex) (tx : TxIndex) :
    Option StorageValue × ShadowDb DB :=
  match searchStorage s.layers key ci tx with
  | none => (none, s)
  | some f =>
    (if f.answers then some f.value else none, { s with layers := recordRead s.layers key ci tx f })

/-- What one layer knows of an account. -/
def readAccount (own : Bool) (tx : TxIndex) (versions : OrdMap TxIndex AccountInfo) :
    Option AccountInfo :=
  (versions.range fun i => !own || decide (i < tx)).getLast?.map Prod.snd

/-- READLAST lookup for account info. -/
def readlastAccount (s : ShadowDb DB) (address : Address) (currentCi : CommitIndex)
    (currentTx : TxIndex) : Option AccountInfo :=
  searchLayers s.layers fun ci layer =>
    (layer.accountVersions.get? address).bind (readAccount (ci == currentCi) currentTx)

variable [DatabaseRef DB]

/-- Read a slot at the current position; the read leaves its dependencies behind. -/
def storageRef (s : ShadowDb DB) (address : Address) (index : StorageKey) :
    Except String StorageValue × ShadowDb DB :=
  match s.readlastStorage (slotKey address index) s.currentCommitIndex s.currentTx with
  | (some value, s) => (.ok value, s)
  | (none, s) => (DatabaseRef.storageRef s.canonical address index, s)

/-- Read an account at the current position. -/
def basicRef (s : ShadowDb DB) (address : Address) : Except String (Option AccountInfo) :=
  match s.readlastAccount address s.currentCommitIndex s.currentTx with
  | some info => .ok (some info)
  | none => DatabaseRef.basicRef s.canonical address

omit [DatabaseRef DB]

/-! ### Validation and commit -/

/-- Whether a transaction's recorded reads still stand in its layer. -/
def readsStand (layer : RoundLayer) (tx : TxIndex) (reads : OrdMap SlotKey StorageValue) : Bool :=
  reads.entries.all fun e =>
    match layer.slotVersions.get? e.1 with
    | none => true
    | some sv => readlastInLayer sv tx == some e.2

/-- The transactions whose recorded reads are stale. -/
def validateRound (s : ShadowDb DB) (ci : CommitIndex) : List TxIndex :=
  match s.layers.get? ci with
  | none => []
  | some layer =>
    let stale := (layer.txReads.entries.filter fun e => !readsStand layer e.1 e.2).map Prod.fst
    (stale.insertionSort (· ≤ ·)).destutter (· ≠ ·)

/-- Whether a layer wrote or read one of the changed slots. -/
def touches (layer : RoundLayer) (changed : OrdSet SlotKey) : Bool :=
  layer.slotVersions.keys.any changed.contains ||
    (layer.txReads.values.flatMap OrdMap.keys).any changed.contains

/-- Invalidate the speculative layers above `base` that touch a changed slot. -/
def cascadeInvalidate (s : ShadowDb DB) (base : CommitIndex) (changed : OrdSet SlotKey) :
    List CommitIndex × ShadowDb DB :=
  let hit := fun (ci : CommitIndex) (layer : RoundLayer) =>
    decide (base < ci) && decide (layer.status = .speculative) && touches layer changed
  ((s.layers.entries.filter fun e => hit e.1 e.2).map Prod.fst,
    { s with
      layers := s.layers.mapValues fun ci layer =>
        if hit ci layer then { layer with slotVersions := ∅, accountVersions := ∅, txReads := ∅ }
        else layer })

inductive CommitError where
  | outOfOrder
  | layerNotFound
deriving DecidableEq

structure CommitHandle where
  commitIndex : CommitIndex
  conflicts : List TxIndex
  reexecQueue : List EthSignedTx

/-- Phase 1 of commit. The final order is not used. -/
def stageCommit (s : ShadowDb DB) (ci : CommitIndex) (_finalTxOrder : List TxIndex) :
    CommitHandle × ShadowDb DB :=
  (⟨ci, s.validateRound ci, ((s.layers.get? ci).bind RoundLayer.pendingTxs).getD []⟩,
    { s with layers := s.layers.modify ci fun layer => { layer with status := .pendingCommit } })

/-- Phase 2 of commit: write the diff to the canonical database and drop the layers up
to it. Rounds are finalised in order, from 1. -/
def finalizeCommit [DatabaseCommit DB] (s : ShadowDb DB) (ci : CommitIndex) (diff : EvmState) :
    Except CommitError (ShadowDb DB) :=
  if ci ≠ (match s.lastFinalized with | some prev => prev + 1 | none => 1) then .error .outOfOrder
  else
    .ok { s with
      canonical := DatabaseCommit.commit s.canonical diff
      layers := s.layers.retain fun c => decide (ci < c)
      lastFinalized := some ci }

end ShadowDb

end DualOptimistic.Shadow
