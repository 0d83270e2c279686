import DualOptimistic.Shadow.ShadowDb

/-! The order in which parallel transactions complete does not matter.

Recording an execution is a fold of updates to two nested maps, each at an inner key that
is the transaction's index. Updates of different transactions commute even where they
meet at one slot or one account (`recordSlot_comm`, `recordInfo_comm`), so whole
executions do (`recordState_comm`), and a round is the same in whatever order its
executions are recorded (`recordAll_perm`). -/
namespace DualOptimistic.Shadow
open Data

/-- Two folds commute if their steps do. -/
theorem foldl_comm {σ : Type} {α : Type} {β : Type} {f : σ → α → σ} {g : σ → β → σ}
    (h : ∀ s a b, g (f s a) b = f (g s b) a) (l : List α) (m : List β) (s : σ) :
    m.foldl g (l.foldl f s) = l.foldl f (m.foldl g s) := by
  have hstep : ∀ (s : σ) (b : β), g (l.foldl f s) b = l.foldl f (g s b) := by
    induction l with
    | nil => exact fun s b => rfl
    | cons a rest ih =>
      intro s b
      rw [List.foldl_cons, List.foldl_cons, ih, h]
  induction m generalizing s with
  | nil => rfl
  | cons b rest ih => rw [List.foldl_cons, List.foldl_cons, hstep, ih]

namespace SlotVersions

/-- Writes of different transactions to one slot commute. -/
theorem write_comm {tx tx' : TxIndex} (h : tx ≠ tx') (sv : SlotVersions) (value value' : StorageValue) :
    (sv.write tx value).write tx' value' = (sv.write tx' value').write tx value := by
  have hversions := sv.versions.insert_comm h (.data value) (.data value')
  have hreaders := sv.readers.upsert_comm [] id id fun heq : tx = tx' => absurd heq h
  simp only [write, hversions, hreaders]

end SlotVersions

namespace RoundLayer
variable {tx tx' : TxIndex}

/-- Record the info of one account, unless it is the coinbase. -/
def recordInfo (coinbase : Address) (tx : TxIndex) (layer : RoundLayer) (account : Address × Account) :
    RoundLayer :=
  if account.1 ≠ coinbase then
    { layer with
      accountVersions := layer.accountVersions.upsert account.1 ∅ (·.insert tx account.2.info) }
  else layer

theorem recordSlot_comm (h : tx ≠ tx') (address address' : Address) (layer : RoundLayer)
    (slot slot' : StorageKey × EvmStorageSlot) :
    recordSlot tx' address' (recordSlot tx address layer slot) slot' =
      recordSlot tx address (recordSlot tx' address' layer slot') slot := by
  unfold recordSlot
  split_ifs
  · have hslots := layer.slotVersions.upsert_comm {} (·.write tx slot.2.presentValue)
      (·.write tx' slot'.2.presentValue)
      fun _ : slotKey address slot.1 = slotKey address' slot'.1 => fun sv => sv.write_comm h _ _
    simp only [hslots]
  · rfl
  · rfl
  · rfl

theorem recordInfo_comm (h : tx ≠ tx') (coinbase : Address) (layer : RoundLayer)
    (account account' : Address × Account) :
    recordInfo coinbase tx' (recordInfo coinbase tx layer account) account' =
      recordInfo coinbase tx (recordInfo coinbase tx' layer account') account := by
  unfold recordInfo
  split_ifs
  · have haccounts := layer.accountVersions.upsert_comm ∅ (·.insert tx account.2.info)
      (·.insert tx' account'.2.info)
      fun _ : account.1 = account'.1 => fun versions => versions.insert_comm h _ _
    simp only [haccounts]
  · rfl
  · rfl
  · rfl

/-- Slots and infos are kept apart. -/
theorem recordInfo_recordSlot (coinbase address : Address) (layer : RoundLayer)
    (slot : StorageKey × EvmStorageSlot) (account : Address × Account) :
    recordInfo coinbase tx' (recordSlot tx address layer slot) account =
      recordSlot tx address (recordInfo coinbase tx' layer account) slot := by
  unfold recordInfo recordSlot
  split_ifs
  · rfl
  · rfl
  · rfl
  · rfl

theorem recordAccount_eq (coinbase : Address) (layer : RoundLayer) (account : Address × Account) :
    recordAccount coinbase tx layer account =
      account.2.storage.entries.foldl (recordSlot tx account.1) (recordInfo coinbase tx layer account) := rfl

theorem recordInfo_recordSlots (coinbase address : Address) (slots : List (StorageKey × EvmStorageSlot))
    (layer : RoundLayer) (account : Address × Account) :
    recordInfo coinbase tx' (slots.foldl (recordSlot tx address) layer) account =
      slots.foldl (recordSlot tx address) (recordInfo coinbase tx' layer account) :=
  foldl_comm (fun layer slot account => recordInfo_recordSlot coinbase address layer slot account) slots
    [account] layer

theorem recordAccount_comm (h : tx ≠ tx') (coinbase : Address) (layer : RoundLayer)
    (account account' : Address × Account) :
    recordAccount coinbase tx' (recordAccount coinbase tx layer account) account' =
      recordAccount coinbase tx (recordAccount coinbase tx' layer account') account := by
  simp only [recordAccount_eq, recordInfo_recordSlots]
  rw [foldl_comm fun layer slot slot' => recordSlot_comm h account.1 account'.1 layer slot slot',
    recordInfo_comm h]

/-- **Executions of different transactions commute.** -/
theorem recordState_comm (h : tx ≠ tx') (coinbase : Address) (layer : RoundLayer) (state state' : EvmState) :
    (layer.recordState coinbase tx state).recordState coinbase tx' state' =
      (layer.recordState coinbase tx' state').recordState coinbase tx state :=
  foldl_comm (fun layer account account' => recordAccount_comm h coinbase layer account account') _ _ layer

end RoundLayer

namespace ShadowDb
variable {DB : Type}

theorem recordTxExecution_comm (s : ShadowDb DB) (ci : CommitIndex) {tx tx' : TxIndex} (h : tx ≠ tx')
    (state state' : EvmState) :
    (s.recordTxExecution ci tx state).recordTxExecution ci tx' state' =
      (s.recordTxExecution ci tx' state').recordTxExecution ci tx state := by
  have hlayers := s.layers.upsert_comm (.new ci) (·.recordState s.coinbase tx state)
    (·.recordState s.coinbase tx' state')
    fun _ : ci = ci => fun layer => layer.recordState_comm h s.coinbase state state'
  simp only [recordTxExecution, hlayers]

/-- Record the executions of a round one after another. -/
def recordAll (s : ShadowDb DB) (ci : CommitIndex) (executions : List (TxIndex × EvmState)) : ShadowDb DB :=
  executions.foldl (fun s execution => s.recordTxExecution ci execution.1 execution.2) s

theorem recordAll_perm (s : ShadowDb DB) (ci : CommitIndex) {executions executions' : List (TxIndex × EvmState)}
    (hdistinct : (executions.map Prod.fst).Nodup) (hperm : executions.Perm executions') :
    s.recordAll ci executions = s.recordAll ci executions' := by
  apply hperm.foldl_eq'
  intro x hx y hy s
  by_cases hxy : x.1 = y.1
  · rw [List.inj_on_of_nodup_map hdistinct hx hy hxy]
  · exact s.recordTxExecution_comm ci hxy x.2 y.2

/-- **Completion order does not matter.** From any state, recording the executions of a
round's distinct transactions in any two orders leaves the same round, and so the same
answers to every later read, at any position, and to every later validation. -/
theorem recordAll_order_irrelevant [DatabaseRef DB] (s : ShadowDb DB) (ci : CommitIndex)
    (executions executions' : List (TxIndex × EvmState)) (hdistinct : (executions.map Prod.fst).Nodup)
    (hperm : executions.Perm executions') :
    let l := s.recordAll ci executions
    let r := s.recordAll ci executions'
    l.layers.get? ci = r.layers.get? ci ∧
      (∀ c tx address index, (l.setCurrentTx c tx).storageRef address index =
        (r.setCurrentTx c tx).storageRef address index) ∧
      (∀ c tx address, (l.setCurrentTx c tx).basicRef address = (r.setCurrentTx c tx).basicRef address) ∧
      (∀ c, l.validateRound c = r.validateRound c) ∧ l = r := by
  intro l r
  have heq : l = r := recordAll_perm s ci hdistinct hperm
  rw [heq]
  exact ⟨rfl, fun _ _ _ _ => rfl, fun _ _ _ => rfl, fun _ => rfl, rfl⟩

/-- An execution that writes slot 1 of account 5. -/
def writesSlot (value : StorageValue) : EvmState :=
  (∅ : EvmState).insert 5 ⟨{}, (∅ : OrdMap StorageKey EvmStorageSlot).insert 1 ⟨0, value⟩⟩

/-- Two transactions that write one slot, recorded in both orders. -/
theorem recordAll_overlapping :
    let s : ShadowDb EmptyDb := .new {} 0
    let executions := [(0, writesSlot 7), (1, writesSlot 8)]
    (executions.map Prod.fst).Nodup ∧ executions.Perm executions.reverse ∧
      s.recordAll 1 executions = s.recordAll 1 executions.reverse := by
  intro s executions
  have hdistinct : (executions.map Prod.fst).Nodup := by simp [executions]
  have hperm : executions.Perm executions.reverse := (List.reverse_perm _).symm
  exact ⟨hdistinct, hperm, (recordAll_order_irrelevant s 1 _ _ hdistinct hperm).2.2.2.2⟩

end ShadowDb

end DualOptimistic.Shadow
