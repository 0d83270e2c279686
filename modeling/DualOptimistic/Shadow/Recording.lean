import DualOptimistic.Shadow.Isolation
import Mathlib.Data.List.Destutter

/-! What the calls that write do to a layer, slot by slot and account by account.

Recording an execution inserts the versions it changed; an abort turns the slot versions of
a transaction into pending ones; a commit removes them and records again. Neither of the last
two looks at the account versions. -/
namespace DualOptimistic.Shadow
open Data

/-! ### What recording an execution writes -/

/-- The execution changed the slot to `value`. -/
def Writes (state : EvmState) (key : SlotKey) (value : StorageValue) : Prop :=
  ∃ account slot, state.get? (ofLex key).1 = some account ∧ account.storage.get? (ofLex key).2 = some slot ∧
    slot.isChanged = true ∧ slot.presentValue = value

/-- The value the execution changed the slot to. -/
def slotWrite (state : EvmState) (key : SlotKey) : Option StorageValue :=
  ((state.get? (ofLex key).1).bind (·.storage.get? (ofLex key).2)).bind fun slot =>
    if slot.isChanged then some slot.presentValue else none

theorem writes_iff {state : EvmState} {key : SlotKey} {value : StorageValue} :
    Writes state key value ↔ slotWrite state key = some value := by
  unfold Writes slotWrite
  constructor
  · intro h
    obtain ⟨account, slot, haccount, hslot, hchanged, rfl⟩ := h
    rw [haccount, Option.bind_some, hslot, Option.bind_some, if_pos hchanged]
  · intro h
    obtain ⟨slot, hslot, hvalue⟩ := Option.bind_eq_some_iff.mp h
    obtain ⟨account, haccount, hslot⟩ := Option.bind_eq_some_iff.mp hslot
    split_ifs at hvalue with hchanged
    exact ⟨account, slot, haccount, hslot, hchanged, Option.some.inj hvalue⟩

/-- The info the execution left of the account; the coinbase is not recorded. -/
def accountWrite (coinbase : Address) (state : EvmState) (address : Address) : Option AccountInfo :=
  if address = coinbase then none else (state.get? address).map Account.info

namespace RoundLayer
variable (coinbase : Address) (tx : TxIndex)

/-- The versions of a slot in a layer. -/
def versionsOf (layer : RoundLayer) (key : SlotKey) : OrdMap TxIndex VersionedValue :=
  ((layer.slotVersions.get? key).map SlotVersions.versions).getD ∅

/-- The versions of an account in a layer. -/
def accountsOf (layer : RoundLayer) (address : Address) : OrdMap TxIndex AccountInfo :=
  (layer.accountVersions.get? address).getD ∅

theorem versionsOf_recordSlot (address : Address) (layer : RoundLayer) (slot : StorageKey × EvmStorageSlot)
    (key : SlotKey) : (recordSlot tx address layer slot).versionsOf key =
      if slot.2.isChanged = true ∧ key = slotKey address slot.1
      then (layer.versionsOf key).insert tx (.data slot.2.presentValue) else layer.versionsOf key := by
  rw [recordSlot]
  by_cases hchanged : slot.2.isChanged = true
  · rw [if_pos hchanged, versionsOf, OrdMap.get?_upsert]
    by_cases hkey : key = slotKey address slot.1
    · rw [if_pos hkey, if_pos ⟨hchanged, hkey⟩, versionsOf, hkey]
      cases layer.slotVersions.get? (slotKey address slot.1) with
      | none => rfl
      | some sv => rfl
    · rw [if_neg hkey, if_neg fun h => hkey h.2]
      rfl
  · rw [if_neg hchanged, if_neg fun h => hchanged h.1]

/-- What an execution left of an account's slots, given what stood there. -/
def writeOver (m : OrdMap TxIndex VersionedValue) (write : Option StorageValue) : OrdMap TxIndex VersionedValue :=
  (write.map fun value => m.insert tx (.data value)).getD m

/-- The slots of one account. -/
theorem versionsOf_recordSlots (address : Address) (storage : OrdMap StorageKey EvmStorageSlot)
    (layer : RoundLayer) (key : SlotKey) :
    (storage.entries.foldl (recordSlot tx address) layer).versionsOf key =
      if address = (ofLex key).1 then
        writeOver tx (layer.versionsOf key) ((storage.get? (ofLex key).2).bind fun slot =>
          if slot.isChanged then some slot.presentValue else none)
      else layer.versionsOf key := by
  have hkey : ∀ k, key = slotKey address k ↔ address = (ofLex key).1 ∧ k = (ofLex key).2 := by
    intro k
    exact ⟨fun h => h ▸ ⟨rfl, rfl⟩, fun h => by rw [h.1, h.2]; rfl⟩
  have hother : ∀ (layer : RoundLayer) (e : StorageKey × EvmStorageSlot), e.1 ≠ (ofLex key).2 →
      (recordSlot tx address layer e).versionsOf key = layer.versionsOf key := by
    intro layer e he
    rw [versionsOf_recordSlot, if_neg fun h => he ((hkey e.1).mp h.2).2]
  have hself : ∀ (layer : RoundLayer) (slot : EvmStorageSlot),
      (recordSlot tx address layer ((ofLex key).2, slot)).versionsOf key =
        if slot.isChanged = true ∧ address = (ofLex key).1
        then (layer.versionsOf key).insert tx (.data slot.presentValue) else layer.versionsOf key := by
    intro layer slot
    rw [versionsOf_recordSlot]
    simp only [hkey, and_true]
  rw [@OrdMap.foldl_entries _ _ _ _ _ _ (fun layer : RoundLayer => layer.versionsOf key) (ofLex key).2
    (fun slot m => if slot.isChanged = true ∧ address = (ofLex key).1
      then m.insert tx (.data slot.presentValue) else m) hother hself]
  cases storage.get? (ofLex key).2 with
  | none => simp [writeOver]
  | some slot =>
    by_cases haddress : address = (ofLex key).1
    · cases hchanged : slot.isChanged with
      | true => simp [writeOver, haddress, hchanged]
      | false => simp [writeOver, hchanged]
    · simp [haddress]

theorem versionsOf_recordAccount (layer : RoundLayer) (account : Address × Account) (key : SlotKey) :
    (recordAccount coinbase tx layer account).versionsOf key =
      if account.1 = (ofLex key).1 then
        writeOver tx (layer.versionsOf key) ((account.2.storage.get? (ofLex key).2).bind fun slot =>
          if slot.isChanged then some slot.presentValue else none)
      else layer.versionsOf key := by
  unfold recordAccount
  rw [versionsOf_recordSlots]
  have hinfo : (if account.1 ≠ coinbase then
      { layer with accountVersions := layer.accountVersions.upsert account.1 ∅ (·.insert tx account.2.info) }
      else layer).versionsOf key = layer.versionsOf key := by
    split_ifs
    · rfl
    · rfl
  rw [hinfo]

/-- **Recording an execution**, slot by slot. -/
theorem versionsOf_recordState (layer : RoundLayer) (state : EvmState) (key : SlotKey) :
    (layer.recordState coinbase tx state).versionsOf key =
      writeOver tx (layer.versionsOf key) (slotWrite state key) := by
  have hother : ∀ (layer : RoundLayer) (e : Address × Account), e.1 ≠ (ofLex key).1 →
      (recordAccount coinbase tx layer e).versionsOf key = layer.versionsOf key := by
    intro layer e he
    rw [versionsOf_recordAccount, if_neg he]
  have hself : ∀ (layer : RoundLayer) (account : Account),
      (recordAccount coinbase tx layer ((ofLex key).1, account)).versionsOf key =
        writeOver tx (layer.versionsOf key) ((account.storage.get? (ofLex key).2).bind fun slot =>
          if slot.isChanged then some slot.presentValue else none) := by
    intro layer account
    rw [versionsOf_recordAccount, if_pos rfl]
  unfold recordState
  rw [@OrdMap.foldl_entries _ _ _ _ _ _ (fun layer : RoundLayer => layer.versionsOf key) (ofLex key).1
    (fun account m => writeOver tx m ((account.storage.get? (ofLex key).2).bind fun slot =>
      if slot.isChanged then some slot.presentValue else none)) hother hself]
  unfold slotWrite
  cases state.get? (ofLex key).1 with
  | none => rfl
  | some account => rfl

theorem accountsOf_recordAccount (layer : RoundLayer) (account : Address × Account) (address : Address) :
    (recordAccount coinbase tx layer account).accountsOf address =
      if account.1 = address ∧ address ≠ coinbase then (layer.accountsOf address).insert tx account.2.info
      else layer.accountsOf address := by
  have hslots : ∀ (slots : List (StorageKey × EvmStorageSlot)) (layer : RoundLayer),
      (slots.foldl (recordSlot tx account.1) layer).accountsOf address = layer.accountsOf address := by
    intro slots
    induction slots with
    | nil => exact fun layer => rfl
    | cons slot rest ih =>
      intro layer
      rw [List.foldl_cons, ih, recordSlot]
      split_ifs
      · rfl
      · rfl
  rw [recordAccount, hslots]
  by_cases hcoinbase : account.1 ≠ coinbase
  · rw [if_pos hcoinbase, accountsOf, OrdMap.get?_upsert]
    by_cases haddress : address = account.1
    · subst haddress
      rw [if_pos rfl, if_pos ⟨rfl, hcoinbase⟩]
      rfl
    · rw [if_neg haddress, if_neg fun h => haddress h.1.symm]
      rfl
  · rw [if_neg hcoinbase, if_neg]
    exact fun h => hcoinbase (h.1 ▸ h.2)

/-- **Recording an execution**, account by account. -/
theorem accountsOf_recordState (layer : RoundLayer) (state : EvmState) (address : Address) :
    (layer.recordState coinbase tx state).accountsOf address =
      ((accountWrite coinbase state address).map fun info => (layer.accountsOf address).insert tx info).getD
        (layer.accountsOf address) := by
  have hother : ∀ (layer : RoundLayer) (e : Address × Account), e.1 ≠ address →
      (recordAccount coinbase tx layer e).accountsOf address = layer.accountsOf address := by
    intro layer e he
    rw [accountsOf_recordAccount, if_neg fun h => he h.1]
  have hself : ∀ (layer : RoundLayer) (account : Account),
      (recordAccount coinbase tx layer (address, account)).accountsOf address =
        if address ≠ coinbase then (layer.accountsOf address).insert tx account.info
        else layer.accountsOf address := by
    intro layer account
    rw [accountsOf_recordAccount]
    simp only [true_and]
  unfold recordState
  rw [@OrdMap.foldl_entries _ _ _ _ _ _ (fun layer : RoundLayer => layer.accountsOf address) address
    (fun account m => if address ≠ coinbase then m.insert tx account.info else m) hother hself]
  unfold accountWrite
  cases state.get? address with
  | none => simp
  | some account =>
    by_cases hcoinbase : address = coinbase
    · simp [hcoinbase]
    · simp [hcoinbase]

/-- What neither a slot nor the info of an account changes, recording an execution does not. -/
theorem view_recordState {α : Type} {view : RoundLayer → α}
    (hslot : ∀ layer address slot, view (recordSlot tx address layer slot) = view layer)
    (hinfo : ∀ (layer : RoundLayer) versions, view { layer with accountVersions := versions } = view layer)
    (layer : RoundLayer) (state : EvmState) :
    view (layer.recordState coinbase tx state) = view layer := by
  have hslots : ∀ (address : Address) (slots : List (StorageKey × EvmStorageSlot)) (layer : RoundLayer),
      view (slots.foldl (recordSlot tx address) layer) = view layer := by
    intro address slots
    induction slots with
    | nil => exact fun layer => rfl
    | cons slot rest ih =>
      intro layer
      rw [List.foldl_cons, ih, hslot]
  rw [recordState]
  induction state.entries generalizing layer with
  | nil => rfl
  | cons a rest ih =>
    rw [List.foldl_cons, ih, recordAccount, hslots]
    split_ifs
    · exact hinfo layer _
    · rfl

theorem recordState_txReads (layer : RoundLayer) (state : EvmState) :
    (layer.recordState coinbase tx state).txReads = layer.txReads := by
  refine @view_recordState coinbase tx _ RoundLayer.txReads (fun layer address slot => ?_) (fun _ _ => rfl) layer state
  rw [recordSlot]
  split_ifs
  · rfl
  · rfl

/-- Recording another execution leaves the position as it is. -/
theorem recordState_other {tx tx' : TxIndex} (h : tx ≠ tx') (layer : RoundLayer)
    (state : EvmState) :
    (∀ key, ((layer.recordState coinbase tx' state).versionsOf key).get? tx = (layer.versionsOf key).get? tx) ∧
      ∀ address, ((layer.recordState coinbase tx' state).accountsOf address).get? tx =
        (layer.accountsOf address).get? tx := by
  constructor
  · intro key
    rw [versionsOf_recordState, writeOver]
    cases slotWrite state key with
    | none => rfl
    | some value =>
      show ((layer.versionsOf key).insert tx' _).get? tx = _
      rw [OrdMap.get?_insert, if_neg h]
  · intro address
    rw [accountsOf_recordState]
    cases accountWrite coinbase state address with
    | none => rfl
    | some info =>
      show ((layer.accountsOf address).insert tx' _).get? tx = _
      rw [OrdMap.get?_insert, if_neg h]

/-- The layer after its transaction was aborted. -/
def aborted (layer : RoundLayer) : RoundLayer :=
  { layer with
    slotVersions := layer.slotVersions.mapValues fun _ sv =>
      { versions := sv.versions.modify tx fun _ => .pending
        readers := sv.readers.modify tx fun _ => [] } }

/-- The layer without what its transaction wrote to slots and read. -/
def cleared (layer : RoundLayer) : RoundLayer :=
  { layer with
    slotVersions := layer.slotVersions.mapValues fun _ sv =>
      { versions := sv.versions.erase tx, readers := sv.readers.erase tx }
    txReads := layer.txReads.erase tx }

theorem versionsOf_aborted (layer : RoundLayer) (key : SlotKey) :
    (layer.aborted tx).versionsOf key = (layer.versionsOf key).modify tx fun _ => .pending := by
  unfold versionsOf aborted
  rw [OrdMap.get?_mapValues]
  cases layer.slotVersions.get? key with
  | none => exact OrdMap.ext_get? fun i => (by simp)
  | some sv => rfl

theorem versionsOf_cleared (layer : RoundLayer) (key : SlotKey) :
    (layer.cleared tx).versionsOf key = (layer.versionsOf key).erase tx := by
  unfold versionsOf cleared
  rw [OrdMap.get?_mapValues]
  cases layer.slotVersions.get? key with
  | none => exact OrdMap.ext_get? fun i => (by simp)
  | some sv => rfl

/-- The layer with one more reader of a version. -/
def addReader (layer : RoundLayer) (key : SlotKey) (w k : TxIndex) : RoundLayer :=
  { layer with slotVersions := layer.slotVersions.upsert key {} fun sv =>
      { sv with readers := sv.readers.upsert w [] (· ++ [k]) } }

theorem versionsOf_addReader (layer : RoundLayer) (key key' : SlotKey) (w k : TxIndex) :
    (layer.addReader key w k).versionsOf key' = layer.versionsOf key' := by
  unfold versionsOf addReader
  rw [OrdMap.get?_upsert]
  split_ifs with hkey
  · rw [hkey]
    cases layer.slotVersions.get? key with
    | none => rfl
    | some sv => rfl
  · rfl

/-! ### The readers of a version -/

/-- The transactions registered as readers of a version. -/
def readersAt (layer : RoundLayer) (key : SlotKey) (w : TxIndex) : List TxIndex :=
  ((layer.slotVersions.get? key).bind (·.readers.get? w)).getD []

/-- Recording an execution keeps all readers. -/
theorem readersAt_recordState (layer : RoundLayer) (state : EvmState) (key : SlotKey) (w : TxIndex) :
    (layer.recordState coinbase tx state).readersAt key w = layer.readersAt key w := by
  refine @view_recordState coinbase tx _ (·.readersAt key w) (fun layer address slot => ?_) (fun _ _ => rfl) layer state
  unfold recordSlot
  split_ifs
  · unfold readersAt
    rw [OrdMap.get?_upsert]
    split_ifs with hkey
    · rw [hkey, Option.bind_some, SlotVersions.write, OrdMap.get?_upsert]
      cases layer.slotVersions.get? (slotKey address slot.1) with
      | none =>
        split_ifs
        · rfl
        · rfl
      | some sv =>
        split_ifs with hw
        · rw [hw]
          rfl
        · rfl
    · rfl
  · rfl

/-- An abort and a commit drop those of their transaction, and no others. -/
theorem readersAt_aborted (layer : RoundLayer) (key : SlotKey) (w : TxIndex) :
    (layer.aborted tx).readersAt key w = if w = tx then [] else layer.readersAt key w := by
  unfold readersAt aborted
  rw [OrdMap.get?_mapValues]
  cases layer.slotVersions.get? key with
  | none => exact (ite_self _).symm
  | some sv =>
    show ((sv.readers.modify tx fun _ => []).get? w).getD [] = _
    rw [OrdMap.get?_modify]
    split_ifs with hw
    · cases sv.readers.get? tx with
      | none => rfl
      | some readers => rfl
    · rfl

theorem readersAt_cleared (layer : RoundLayer) (key : SlotKey) (w : TxIndex) :
    (layer.cleared tx).readersAt key w = if w = tx then [] else layer.readersAt key w := by
  unfold readersAt cleared
  rw [OrdMap.get?_mapValues]
  cases layer.slotVersions.get? key with
  | none => exact (ite_self _).symm
  | some sv =>
    show ((sv.readers.erase tx).get? w).getD [] = _
    rw [OrdMap.get?_erase]
    split_ifs
    · rfl
    · rfl

/-- A read adds a reader. -/
theorem readersAt_addReader (layer : RoundLayer) (key key' : SlotKey) (w w' k : TxIndex) :
    (layer.addReader key w k).readersAt key' w' =
      if key' = key ∧ w' = w then layer.readersAt key w ++ [k] else layer.readersAt key' w' := by
  unfold readersAt addReader
  rw [OrdMap.get?_upsert]
  by_cases hkey : key' = key
  · subst hkey
    rw [if_pos rfl, Option.bind_some, OrdMap.get?_upsert]
    by_cases hw : w' = w
    · rw [if_pos hw, if_pos ⟨rfl, hw⟩]
      cases layer.slotVersions.get? key' with
      | none => rfl
      | some sv => rfl
    · rw [if_neg hw, if_neg fun h => hw h.2]
      cases layer.slotVersions.get? key' with
      | none => rfl
      | some sv => rfl
  · rw [if_neg hkey, if_neg fun h => hkey h.1]

end RoundLayer

namespace ShadowDb
variable {DB : Type}

/-- The layer of a round, with nothing in it if there is none. -/
def layerAt (s : ShadowDb DB) (ci : CommitIndex) : RoundLayer := (s.layers.get? ci).getD (.new ci)

theorem version_eq (s : ShadowDb DB) (c : CommitIndex) (i : TxIndex) (key : SlotKey) :
    s.version c i key = ((s.layerAt c).versionsOf key).get? i := by
  unfold version versionsAt layerAt
  cases s.layers.get? c with
  | none => rfl
  | some layer => rfl

theorem accountVersion_eq (s : ShadowDb DB) (c : CommitIndex) (i : TxIndex) (address : Address) :
    s.accountVersion c i address = ((s.layerAt c).accountsOf address).get? i := by
  unfold accountVersion accountVersionsAt layerAt
  cases s.layers.get? c with
  | none => rfl
  | some layer => rfl

/-! ### The layers after a call -/

theorem layerAt_ensureLayer (s : ShadowDb DB) (ci c : CommitIndex) :
    (s.ensureLayer ci).layerAt c = s.layerAt c := by
  unfold layerAt ensureLayer
  dsimp only
  rw [OrdMap.get?_upsert]
  split_ifs with hc
  · rw [hc]
    rfl
  · rfl

theorem layerAt_record (s : ShadowDb DB) (ci : CommitIndex) (tx : TxIndex) (state : EvmState) (c : CommitIndex) :
    (s.recordTxExecution ci tx state).layerAt c =
      if c = ci then (s.layerAt ci).recordState s.coinbase tx state else s.layerAt c := by
  unfold layerAt recordTxExecution
  dsimp only
  rw [OrdMap.get?_upsert]
  split_ifs with hc
  · rfl
  · rfl

theorem layerAt_abort (s : ShadowDb DB) (ci : CommitIndex) (tx : TxIndex) (c : CommitIndex) :
    (s.abortTx ci tx).2.layerAt c = if c = ci then (s.layerAt ci).aborted tx else s.layerAt c := by
  unfold abortTx layerAt
  cases hlayer : s.layers.get? ci with
  | none =>
    dsimp only
    split_ifs with hc
    · rw [hc, hlayer]
      rfl
    · rfl
  | some layer =>
    dsimp only
    rw [OrdMap.get?_insert]
    split_ifs with hc
    · rfl
    · rfl

/-- A commit is refused where there is no layer. -/
theorem layerAt_commit (s : ShadowDb DB) (ci : CommitIndex) (tx : TxIndex) (state : EvmState) (c : CommitIndex) :
    (s.commitTxExecution ci tx state).layerAt c =
      if c = ci ∧ s.layers.contains ci = true then ((s.layerAt ci).cleared tx).recordState s.coinbase tx state
      else s.layerAt c := by
  unfold commitTxExecution layerAt OrdMap.contains
  cases hlayer : s.layers.get? ci with
  | none => simp
  | some layer =>
    dsimp only
    rw [OrdMap.get?_insert]
    by_cases hc : c = ci
    · rw [if_pos hc, if_pos ⟨hc, rfl⟩]
      rfl
    · rw [if_neg hc, if_neg fun h => hc h.1]

/-- Changing one layer changes that one, or none. -/
theorem getD_modify (layers : OrdMap CommitIndex RoundLayer) (g : RoundLayer → RoundLayer) (k c : CommitIndex) :
    ((layers.modify k g).get? c).getD (.new c) = (layers.get? c).getD (.new c) ∨
      ((layers.modify k g).get? c).getD (.new c) = g ((layers.get? c).getD (.new c)) := by
  rw [OrdMap.get?_modify]
  split_ifs with hc
  · rw [hc]
    cases layers.get? k with
    | none => exact .inl rfl
    | some layer => exact .inr rfl
  · exact .inl rfl

theorem storageRef_db [DatabaseRef DB] (s : ShadowDb DB) (address : Address) (index : StorageKey) :
    (s.storageRef address index).2 = s ∨ ∃ f, (s.storageRef address index).2 =
      { s with layers := recordRead s.layers (slotKey address index) s.currentCommitIndex s.currentTx f } := by
  have heq := storageRef_eq s s.currentCommitIndex s.currentTx address index
  have hself : s.setCurrentTx s.currentCommitIndex s.currentTx = s := rfl
  rw [hself] at heq
  rw [heq]
  cases searchStorage s.layers (slotKey address index) s.currentCommitIndex s.currentTx with
  | none => exact .inl rfl
  | some f => exact .inr ⟨f, rfl⟩

/-- Reading makes no layer. -/
theorem get?_recordRead_none {layers : OrdMap CommitIndex RoundLayer} {c : CommitIndex}
    (h : layers.get? c = none) (key : SlotKey) (ci : CommitIndex) (tx : TxIndex) (f : Found) :
    (recordRead layers key ci tx f).get? c = none := by
  have hmodify : ∀ {layers : OrdMap CommitIndex RoundLayer}, layers.get? c = none →
      ∀ k g, (layers.modify k g).get? c = none := by
    intro layers h k g
    rw [OrdMap.get?_modify]
    split_ifs with hc
    · rw [← hc, h]
      rfl
    · exact h
  unfold recordRead
  split_ifs
  · exact hmodify (hmodify h _ _) _ _
  · exact hmodify h _ _

/-- What is remembered of a read comes after its reader is registered. -/
theorem getD_recordRead (layers : OrdMap CommitIndex RoundLayer) (key : SlotKey) (ci : CommitIndex)
    (tx : TxIndex) (f : Found) (c : CommitIndex) :
    let registered := layers.modify f.writerCi (·.addReader key f.writerTx tx)
    ∃ reads, ((recordRead layers key ci tx f).get? c).getD (.new c) =
      { (registered.get? c).getD (.new c) with txReads := reads } := by
  intro registered
  have hrecord : recordRead layers key ci tx f = if f.answers then registered.modify ci fun layer =>
      { layer with txReads := layer.txReads.upsert tx ∅ (·.insert key f.value) } else registered := rfl
  rw [hrecord]
  split_ifs
  · rcases getD_modify registered (fun layer =>
      { layer with txReads := layer.txReads.upsert tx ∅ (·.insert key f.value) }) ci c with h | h
    · exact ⟨_, h⟩
    · exact ⟨_, h⟩
  · exact ⟨_, rfl⟩

/-- **A read** adds a reader to a layer, and to what it remembers, or leaves it as it is. -/
theorem layerAt_storageRef [DatabaseRef DB] (s : ShadowDb DB) (address : Address) (index : StorageKey)
    (c : CommitIndex) : ∃ layer reads, (s.storageRef address index).2.layerAt c = { layer with txReads := reads } ∧
      (layer = s.layerAt c ∨ ∃ key w k, layer = (s.layerAt c).addReader key w k) := by
  rcases s.storageRef_db address index with h | ⟨f, h⟩
  · rw [h]
    exact ⟨s.layerAt c, (s.layerAt c).txReads, rfl, .inl rfl⟩
  · obtain ⟨reads, hreads⟩ := getD_recordRead s.layers (slotKey address index) s.currentCommitIndex s.currentTx f c
    have hregistered := getD_modify s.layers (·.addReader (slotKey address index) f.writerTx s.currentTx) f.writerCi c
    rw [h]
    exact ⟨_, reads, hreads, hregistered.imp id fun h => ⟨_, _, _, h⟩⟩

theorem versionsOf_storageRef [DatabaseRef DB] (s : ShadowDb DB) (address : Address) (index : StorageKey)
    (c : CommitIndex) (key : SlotKey) :
    ((s.storageRef address index).2.layerAt c).versionsOf key = (s.layerAt c).versionsOf key := by
  obtain ⟨layer, reads, heq, rfl | ⟨key', w, k, rfl⟩⟩ := s.layerAt_storageRef address index c
  · rw [heq]
    rfl
  · rw [heq]
    exact RoundLayer.versionsOf_addReader ..

theorem accountsOf_storageRef [DatabaseRef DB] (s : ShadowDb DB) (address : Address) (index : StorageKey)
    (c : CommitIndex) (a : Address) :
    ((s.storageRef address index).2.layerAt c).accountsOf a = (s.layerAt c).accountsOf a := by
  obtain ⟨layer, reads, heq, rfl | ⟨key', w, k, rfl⟩⟩ := s.layerAt_storageRef address index c
  · rw [heq]
    rfl
  · rw [heq]
    rfl

theorem mem_readersAt_storageRef [DatabaseRef DB] {s : ShadowDb DB} {c : CommitIndex} {key : SlotKey}
    {w k : TxIndex} (h : k ∈ (s.layerAt c).readersAt key w) (address : Address) (index : StorageKey) :
    k ∈ ((s.storageRef address index).2.layerAt c).readersAt key w := by
  obtain ⟨layer, reads, heq, rfl | ⟨key', w', k', rfl⟩⟩ := s.layerAt_storageRef address index c
  · rw [heq]
    exact h
  · have hadded : ((s.layerAt c).addReader key' w' k').readersAt key w = _ := RoundLayer.readersAt_addReader ..
    rw [heq]
    refine hadded ▸ ?_
    split_ifs with hat
    · rw [← hat.1, ← hat.2]
      exact List.mem_append_left _ h
    · exact h

/-! ### Notified readers -/

theorem mem_sortedDedup {l : List TxIndex} {k : TxIndex} :
    k ∈ (l.insertionSort (· ≤ ·)).destutter (· ≠ ·) ↔ k ∈ l := by
  rw [(List.pairwise_insertionSort (· ≤ ·) _).destutter_eq_dedup, List.mem_dedup,
    (List.perm_insertionSort _ _).mem_iff]

/-- The readers of a transaction are notified of its abort, and no others. -/
theorem mem_abortTx {s : ShadowDb DB} {ci : CommitIndex} {k tx : TxIndex} :
    k ∈ (s.abortTx ci tx).1 ↔ ∃ key, k ∈ (s.layerAt ci).readersAt key tx := by
  unfold abortTx layerAt RoundLayer.readersAt
  cases s.layers.get? ci with
  | none =>
    refine iff_of_false (fun h => (by cases h)) fun h => ?_
    obtain ⟨key, hkey⟩ := h
    cases hkey
  | some layer =>
    show k ∈ ((List.flatMap _ _).insertionSort (· ≤ ·)).destutter (· ≠ ·) ↔ _
    rw [mem_sortedDedup, List.mem_flatMap, Option.getD_some]
    constructor
    · intro h
      obtain ⟨sv, hsv, hk⟩ := h
      obtain ⟨⟨key, sv⟩, hentry, rfl⟩ := List.mem_map.mp hsv
      refine ⟨key, ?_⟩
      rw [OrdMap.get?_eq_some_iff.mpr hentry]
      exact hk
    · intro h
      obtain ⟨key, hk⟩ := h
      cases hsv : layer.slotVersions.get? key with
      | none =>
        rw [hsv] at hk
        cases hk
      | some sv =>
        rw [hsv] at hk
        exact ⟨sv, List.mem_map.mpr ⟨(key, sv), OrdMap.get?_eq_some_iff.mp hsv, rfl⟩, hk⟩

/-! ### The position itself -/

section
variable {s : ShadowDb DB} {ci : CommitIndex} {tx : TxIndex}

/-- Recording the transaction of the position writes what the execution changed. -/
theorem version_record (state : EvmState) (key : SlotKey) :
    (s.recordTxExecution ci tx state).version ci tx key =
      ((slotWrite state key).map VersionedValue.data).or (s.version ci tx key) := by
  rw [version_eq, version_eq, layerAt_record, if_pos rfl, RoundLayer.versionsOf_recordState, RoundLayer.writeOver]
  cases slotWrite state key with
  | none => rfl
  | some value => exact (OrdMap.get?_insert ..).trans (if_pos rfl)

theorem accountVersion_record (state : EvmState) (address : Address) :
    (s.recordTxExecution ci tx state).accountVersion ci tx address =
      (accountWrite s.coinbase state address).or (s.accountVersion ci tx address) := by
  rw [accountVersion_eq, accountVersion_eq, layerAt_record, if_pos rfl, RoundLayer.accountsOf_recordState]
  cases accountWrite s.coinbase state address with
  | none => rfl
  | some info => exact (OrdMap.get?_insert ..).trans (if_pos rfl)

/-- A commit forgets the slots written before it. -/
theorem version_commit (hlayer : s.layers.contains ci = true) (state : EvmState) (key : SlotKey) :
    (s.commitTxExecution ci tx state).version ci tx key = (slotWrite state key).map .data := by
  rw [version_eq, layerAt_commit, if_pos ⟨rfl, hlayer⟩, RoundLayer.versionsOf_recordState,
    RoundLayer.versionsOf_cleared, RoundLayer.writeOver]
  cases slotWrite state key with
  | none => exact (OrdMap.get?_erase ..).trans (if_pos rfl)
  | some value => exact (OrdMap.get?_insert ..).trans (if_pos rfl)

/-- It does not forget the accounts. -/
theorem accountVersion_commit (hlayer : s.layers.contains ci = true) (state : EvmState) (address : Address) :
    (s.commitTxExecution ci tx state).accountVersion ci tx address =
      (accountWrite s.coinbase state address).or (s.accountVersion ci tx address) := by
  rw [accountVersion_eq, accountVersion_eq, layerAt_commit, if_pos ⟨rfl, hlayer⟩,
    RoundLayer.accountsOf_recordState]
  cases accountWrite s.coinbase state address with
  | none => rfl
  | some info => exact (OrdMap.get?_insert ..).trans (if_pos rfl)

/-- An abort leaves no confirmed slot at the position. -/
theorem version_abort_ne_data (key : SlotKey) (value : StorageValue) :
    (s.abortTx ci tx).2.version ci tx key ≠ some (.data value) := by
  intro h
  rw [version_eq, layerAt_abort, if_pos rfl, RoundLayer.versionsOf_aborted, OrdMap.get?_modify, if_pos rfl] at h
  obtain ⟨v, -, hv⟩ := Option.map_eq_some_iff.mp h
  cases hv

/-- It leaves the accounts. -/
theorem accountVersion_abort (c : CommitIndex) (i : TxIndex) (address : Address) :
    (s.abortTx ci tx).2.accountVersion c i address = s.accountVersion c i address := by
  rw [accountVersion_eq, accountVersion_eq, layerAt_abort]
  split_ifs with hc
  · rw [hc]
    rfl
  · rfl

end

end ShadowDb

end DualOptimistic.Shadow
