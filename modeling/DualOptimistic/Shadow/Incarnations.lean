import DualOptimistic.Shadow.Cascade
import DualOptimistic.Shadow.Recording

/-! What is left of an execution that was aborted or superseded.

An abort turns the slot versions of a transaction into pending ones, and a commit of its
re-execution removes them; neither looks at the account versions. So the slots of an aborted
execution are never read again, its accounts are if it left any, and after a commit the
versions of the transaction are those of the re-execution exactly if that touched every
account the executions before it had left (`aborted_writes_hidden`). -/
namespace DualOptimistic.Shadow
open Data

namespace ShadowDb
variable {DB : Type}

/-! ### Where a read is answered from -/

/-- The position whose value a read of the slot at `(ci, tx)` returns; none if it is the
canonical one. A pending writer is answered for by the data below it. -/
def storageSource (s : ShadowDb DB) (key : SlotKey) (ci : CommitIndex) (tx : TxIndex) :
    Option (CommitIndex × TxIndex) :=
  match searchStorage s.layers key ci tx with
  | none => none
  | some f =>
    if !f.answers then none
    else if f.wasPending then
      ((s.versionsAt f.writerCi key).findLast fun i v => if i < f.writerTx then v.data? else none).map
        fun e => (f.writerCi, e.1)
    else some (f.writerCi, f.writerTx)

/-- The position whose info a read of the account at `(ci, tx)` returns. -/
def accountSource (s : ShadowDb DB) (address : Address) (ci : CommitIndex) (tx : TxIndex) :
    Option (CommitIndex × TxIndex) :=
  s.layers.findLast fun c layer => (layer.accountVersions.get? address).bind fun versions =>
    (versions.findLast fun i info => if !(c == ci) || decide (i < tx) then some info else none).map Prod.fst

/-- A pending writer answers only if there is data below it. -/
theorem data_below_pending {s : ShadowDb DB} {key : SlotKey} {f : Found} (hanswers : f.answers = true)
    (hpending : f.wasPending = true)
    (hvalue : f.value = (readlastInLayer { versions := s.versionsAt f.writerCi key } f.writerTx).getD 0) :
    ∃ e, ((s.versionsAt f.writerCi key).findLast fun i v => if i < f.writerTx then v.data? else none) = some e ∧
      s.version f.writerCi e.1 key = some (.data f.value) := by
  rw [readlastInLayer_eq] at hvalue
  cases hbelow : (s.versionsAt f.writerCi key).findLast
      fun i v => if i < f.writerTx then v.data? else none with
  | none =>
    rw [hbelow] at hvalue
    have hzero : f.answers = false := by
      rw [Found.answers, hpending, show f.value = 0 from hvalue]
      rfl
    rw [hanswers] at hzero
    cases hzero
  | some e =>
    rw [hbelow] at hvalue
    obtain ⟨hdata, -⟩ := OrdMap.findLast_eq_some.mp hbelow
    obtain ⟨v, hget, hv⟩ := Option.bind_eq_some_iff.mp hdata
    split_ifs at hv
    refine ⟨e, rfl, ?_⟩
    show (s.versionsAt f.writerCi key).get? e.1 = _
    rw [hget, show f.value = e.2 from hvalue]
    cases v with
    | data value => exact congrArg (some ∘ VersionedValue.data) (Option.some.inj hv)
    | pending => cases hv
    | absent => cases hv

/-- **A slot is read from its source**, or from the canonical database. -/
theorem storageSource_spec [DatabaseRef DB] (s : ShadowDb DB) (address : Address) (index : StorageKey)
    (ci : CommitIndex) (tx : TxIndex) :
    let result := ((s.setCurrentTx ci tx).storageRef address index).1
    let source := s.storageSource (slotKey address index) ci tx
    (source = none → result = DatabaseRef.storageRef s.canonical address index) ∧
      ∀ c i, source = some (c, i) →
        ∃ value, s.version c i (slotKey address index) = some (.data value) ∧ result = .ok value := by
  intro result source
  have hresult : result = answer (DatabaseRef.storageRef s.canonical address index)
      (searchStorage s.layers (slotKey address index) ci tx) := by
    show ((s.setCurrentTx ci tx).storageRef address index).1 = _
    rw [storageRef_eq]
  have hsource : source = s.storageSource (slotKey address index) ci tx := rfl
  rw [storageSource] at hsource
  cases hfound : searchStorage s.layers (slotKey address index) ci tx with
  | none =>
    rw [hfound] at hresult hsource
    exact ⟨fun _ => hresult, fun c i hsome => absurd (hsource.symm.trans hsome) (by simp)⟩
  | some f =>
    rw [hfound] at hresult hsource
    obtain ⟨-, -, hcases⟩ := readLayer_cases (searchStorage_some hfound)
    cases hanswers : f.answers with
    | false =>
      simp only [hanswers, Bool.not_false, if_true] at hsource
      rw [answer, if_neg (by rw [hanswers]; decide)] at hresult
      exact ⟨fun _ => hresult, fun c i hsome => absurd (hsource.symm.trans hsome) (by simp)⟩
    | true =>
      rw [answer, if_pos hanswers] at hresult
      rw [hresult]
      rcases hcases with ⟨hpending, hdata⟩ | ⟨hpending, -, hvalue⟩
      · simp only [hanswers, hpending, Bool.not_true, Bool.false_eq_true, if_false] at hsource
        rw [hsource]
        refine ⟨fun hnone => (by cases hnone), fun c i hsome => ?_⟩
        obtain ⟨rfl, rfl⟩ := Prod.mk.inj (Option.some.inj hsome)
        exact ⟨f.value, hdata, rfl⟩
      · simp only [hanswers, hpending, Bool.not_true, Bool.false_eq_true, if_false, if_true] at hsource
        obtain ⟨e, hbelow, hdata⟩ := data_below_pending hanswers hpending hvalue
        rw [hsource, hbelow]
        refine ⟨fun hnone => (by cases hnone), fun c i hsome => ?_⟩
        obtain ⟨rfl, rfl⟩ := Prod.mk.inj (Option.some.inj hsome)
        exact ⟨f.value, hdata, rfl⟩

/-- **An account is read from its source**, or from the canonical database. -/
theorem accountSource_spec [DatabaseRef DB] (s : ShadowDb DB) (address : Address) (ci : CommitIndex)
    (tx : TxIndex) :
    let result := (s.setCurrentTx ci tx).basicRef address
    let source := s.accountSource address ci tx
    (source = none → result = DatabaseRef.basicRef s.canonical address) ∧
      ∀ c i, source = some (c, i) →
        ∃ info, s.accountVersion c i address = some info ∧ result = .ok (some info) := by
  intro result source
  -- both searches go through the entries found, layer by layer
  have hentry : ∀ (α : Type) (g : TxIndex × AccountInfo → α), (s.layers.findLast fun c layer =>
      (layer.accountVersions.get? address).bind fun versions => (versions.findLast fun i info =>
        if !(c == ci) || decide (i < tx) then some info else none).map g) =
      (s.layers.findLast fun c layer => (layer.accountVersions.get? address).bind fun versions =>
        versions.findLast fun i info => if !(c == ci) || decide (i < tx) then some info else none).map
        fun e => (e.1, g e.2) := by
    intro α g
    rw [← OrdMap.findLast_map]
    refine congrArg _ (funext fun c => funext fun layer => ?_)
    rw [Option.map_bind]
    rfl
  have hread : s.readlastAccount address ci tx = (s.layers.findLast fun c layer =>
      (layer.accountVersions.get? address).bind fun versions =>
        versions.findLast fun i info => if !(c == ci) || decide (i < tx) then some info else none).map
        fun e => e.2.2 := by
    have hlast : ∀ own, readAccount own tx = fun versions => (versions.findLast fun i info =>
        if !own || decide (i < tx) then some info else none).map Prod.snd :=
      fun own => funext (readAccount_eq own tx)
    rw [readlastAccount, searchLayers_eq]
    simp only [hlast]
    rw [hentry, Option.map_map]
    rfl
  have hsource : source = _ := hentry TxIndex Prod.fst
  have hresult : result = _ := basicRef_eq s ci tx address
  rw [hresult, hsource, hread]
  cases hfound : s.layers.findLast fun c layer => (layer.accountVersions.get? address).bind fun versions =>
      versions.findLast fun i info => if !(c == ci) || decide (i < tx) then some info else none with
  | none => exact ⟨fun _ => rfl, fun c i hsome => (by cases hsome)⟩
  | some e =>
    refine ⟨fun hnone => (by cases hnone), fun c i hsome => ?_⟩
    obtain ⟨rfl, rfl⟩ := Prod.mk.inj (Option.some.inj hsome)
    obtain ⟨hlayer, -⟩ := OrdMap.findLast_eq_some.mp hfound
    obtain ⟨layer, hlayer, hversions⟩ := Option.bind_eq_some_iff.mp hlayer
    obtain ⟨versions, hversions, hlast⟩ := Option.bind_eq_some_iff.mp hversions
    obtain ⟨hinfo, -⟩ := OrdMap.findLast_eq_some.mp hlast
    obtain ⟨info, hget, hif⟩ := Option.bind_eq_some_iff.mp hinfo
    split_ifs at hif
    refine ⟨e.2.2, ?_, rfl⟩
    rw [accountVersion_eq, layerAt, hlayer, Option.getD_some, RoundLayer.accountsOf, hversions]
    exact hget.trans hif

/-- An account left by a transaction is read by the next one, unless a newer round has it. -/
theorem accountSource_own {s : ShadowDb DB} {ci : CommitIndex} {tx : TxIndex}
    {address : Address} {info : AccountInfo}
    (hversion : s.accountVersion ci tx address = some info)
    (habove : ∀ c, ci < c → ∀ i, s.accountVersion c i address = none) :
    s.accountSource address ci (tx + 1) = some (ci, tx) := by
  have hversions : ∀ c versions layer, s.layers.get? c = some layer →
      layer.accountVersions.get? address = some versions →
      ∀ i, versions.get? i = s.accountVersion c i address := by
    intro c versions layer hlayer hget i
    rw [accountVersion_eq, layerAt, hlayer, Option.getD_some, RoundLayer.accountsOf, hget]
    rfl
  unfold accountSource
  refine OrdMap.findLast_eq_some.mpr ⟨?_, fun c hc => ?_⟩
  · cases hlayer : s.layers.get? ci with
    | none =>
      rw [accountVersion_eq, layerAt, hlayer] at hversion
      cases hversion
    | some layer =>
      cases hget : layer.accountVersions.get? address with
      | none =>
        rw [accountVersion_eq, layerAt, hlayer, Option.getD_some, RoundLayer.accountsOf, hget] at hversion
        cases hversion
      | some versions =>
        have hlast : (versions.findLast fun i info =>
            if !(ci == ci) || decide (i < tx + 1) then some info else none) = some (tx, info) := by
          refine OrdMap.findLast_eq_some.mpr ⟨?_, fun i hi => ?_⟩
          · rw [hversions ci versions layer hlayer hget, hversion]
            simp
          · cases versions.get? i with
            | none => rfl
            | some info' =>
              have hle : ¬ i < tx + 1 := Nat.not_lt.mpr hi
              simp [hle]
        simp only [Option.bind_some, hget, hlast]
        rfl
  · cases hlayer : s.layers.get? c with
    | none => rfl
    | some layer =>
      cases hget : layer.accountVersions.get? address with
      | none => simp [hget]
      | some versions =>
        have hempty : (versions.findLast fun i info =>
            if !(c == ci) || decide (i < tx + 1) then some info else none) = none := by
          refine OrdMap.findLast_eq_none.mpr fun i => ?_
          rw [hversions c versions layer hlayer hget, habove c hc]
          rfl
        simp only [Option.bind_some, hget, hempty]
        rfl

/-! ### Calls -/

theorem layerAt_cascade (s : ShadowDb DB) (base : CommitIndex) (changed : OrdSet SlotKey) (c : CommitIndex) :
    (s.cascadeInvalidate base changed).2.layerAt c = s.layerAt c ∨
      (s.cascadeInvalidate base changed).2.layerAt c = (s.layerAt c).emptied := by
  unfold layerAt
  rw [get?_cascade]
  cases s.layers.get? c with
  | none => exact .inl rfl
  | some layer =>
    rw [Option.map_some]
    split_ifs
    · exact .inr rfl
    · exact .inl rfl

/-- A call of the database. -/
inductive Call where
  | setCurrentTx (ci : CommitIndex) (tx : TxIndex)
  | ensureLayer (ci : CommitIndex)
  | record (ci : CommitIndex) (tx : TxIndex) (state : EvmState)
  | abort (ci : CommitIndex) (tx : TxIndex)
  | commit (ci : CommitIndex) (tx : TxIndex) (state : EvmState)
  | storageRef (address : Address) (index : StorageKey)
  | basicRef (address : Address)
  | validate (ci : CommitIndex)
  | cascade (base : CommitIndex) (changed : OrdSet SlotKey)
  | stage (ci : CommitIndex) (finalTxOrder : List TxIndex)
  | finalize (ci : CommitIndex) (diff : EvmState)

/-- The database after a call; one that is refused changes nothing. -/
def call [DatabaseRef DB] [DatabaseCommit DB] (s : ShadowDb DB) : Call → ShadowDb DB
  | .setCurrentTx ci tx => s.setCurrentTx ci tx
  | .ensureLayer ci => s.ensureLayer ci
  | .record ci tx state => s.recordTxExecution ci tx state
  | .abort ci tx => (s.abortTx ci tx).2
  | .commit ci tx state => s.commitTxExecution ci tx state
  | .storageRef address index => (s.storageRef address index).2
  | .basicRef _ => s
  | .validate _ => s
  | .cascade base changed => (s.cascadeInvalidate base changed).2
  | .stage ci finalTxOrder => (s.stageCommit ci finalTxOrder).2
  | .finalize ci diff => match s.finalizeCommit ci diff with
    | .ok s => s
    | .error _ => s

def calls [DatabaseRef DB] [DatabaseCommit DB] (s : ShadowDb DB) (history : List Call) : ShadowDb DB :=
  history.foldl call s

theorem coinbase_call [DatabaseRef DB] [DatabaseCommit DB] (s : ShadowDb DB) (c : Call) :
    (s.call c).coinbase = s.coinbase := by
  cases c with
  | abort ci tx =>
    show (s.abortTx ci tx).2.coinbase = s.coinbase
    unfold abortTx
    cases s.layers.get? ci with
    | none => rfl
    | some layer => rfl
  | commit ci tx state =>
    show (s.commitTxExecution ci tx state).coinbase = s.coinbase
    unfold commitTxExecution
    cases s.layers.get? ci with
    | none => rfl
    | some layer => rfl
  | storageRef address index =>
    show (s.storageRef address index).2.coinbase = s.coinbase
    rcases s.storageRef_db address index with h | ⟨f, h⟩
    · rw [h]
    · rw [h]
  | finalize ci diff =>
    show (match s.finalizeCommit ci diff with | .ok s => s | .error _ => s).coinbase = s.coinbase
    unfold finalizeCommit
    split_ifs
    · rfl
    · rfl
  | setCurrentTx ci tx => rfl
  | ensureLayer ci => rfl
  | record ci tx state => rfl
  | basicRef address => rfl
  | validate ci => rfl
  | cascade base changed => rfl
  | stage ci finalTxOrder => rfl

theorem coinbase_calls [DatabaseRef DB] [DatabaseCommit DB] (s : ShadowDb DB) (history : List Call) :
    (s.calls history).coinbase = s.coinbase := by
  unfold calls
  induction history generalizing s with
  | nil => rfl
  | cons c rest ih => rw [List.foldl_cons, ih, coinbase_call]

/-- What is confirmed at a position of `s'`, or an account there, is so in `s`. -/
structure Keeps (ci : CommitIndex) (tx : TxIndex) (s s' : ShadowDb DB) : Prop where
  slots : ∀ key value, s'.version ci tx key = some (.data value) → s.version ci tx key = some (.data value)
  accounts : ∀ address info, s'.accountVersion ci tx address = some info →
    s.accountVersion ci tx address = some info

/-- It is enough to look at the layer. -/
theorem Keeps.of_layer {ci : CommitIndex} {tx : TxIndex} {s s' : ShadowDb DB}
    (hslots : ∀ key value, ((s'.layerAt ci).versionsOf key).get? tx = some (.data value) →
      ((s.layerAt ci).versionsOf key).get? tx = some (.data value))
    (haccounts : ∀ address info, ((s'.layerAt ci).accountsOf address).get? tx = some info →
      ((s.layerAt ci).accountsOf address).get? tx = some info) : Keeps ci tx s s' := by
  refine ⟨fun key value hv => ?_, fun address info hinfo => ?_⟩
  · rw [version_eq] at hv ⊢
    exact hslots key value hv
  · rw [accountVersion_eq] at hinfo ⊢
    exact haccounts address info hinfo

theorem Keeps.same {ci : CommitIndex} {tx : TxIndex} {s s' : ShadowDb DB}
    (h : s'.layerAt ci = s.layerAt ci) : Keeps ci tx s s' :=
  .of_layer (fun _ _ hv => h ▸ hv) fun _ _ hinfo => h ▸ hinfo

/-- A layer with nothing in it has nothing new. -/
theorem Keeps.empty {ci : CommitIndex} {tx : TxIndex} {s s' : ShadowDb DB}
    (hslots : (s'.layerAt ci).slotVersions = ∅) (haccounts : (s'.layerAt ci).accountVersions = ∅) :
    Keeps ci tx s s' := by
  refine .of_layer (fun key value hv => ?_) fun address info hinfo => ?_
  · rw [RoundLayer.versionsOf, hslots] at hv
    cases hv
  · rw [RoundLayer.accountsOf, haccounts] at hinfo
    cases hinfo

theorem keeps_abort (s : ShadowDb DB) (ci ci' : CommitIndex) (tx tx' : TxIndex) :
    Keeps ci tx s (s.abortTx ci' tx').2 := by
  by_cases hci : ci = ci'
  · subst hci
    refine .of_layer (fun key value hv => ?_) fun address info hinfo => ?_
    · rw [layerAt_abort, if_pos rfl, RoundLayer.versionsOf_aborted, OrdMap.get?_modify] at hv
      split_ifs at hv with htx
      · obtain ⟨v, -, hv⟩ := Option.map_eq_some_iff.mp hv
        cases hv
      · exact hv
    · rw [layerAt_abort, if_pos rfl] at hinfo
      exact hinfo
  · refine .same ?_
    rw [layerAt_abort, if_neg hci]

theorem keeps_record (s : ShadowDb DB) {ci ci' : CommitIndex} {tx tx' : TxIndex} (h : ¬ (ci' = ci ∧ tx' = tx))
    (state : EvmState) : Keeps ci tx s (s.recordTxExecution ci' tx' state) := by
  by_cases hci : ci = ci'
  · subst hci
    obtain ⟨hslots, haccounts⟩ := @RoundLayer.recordState_other s.coinbase tx tx' (fun htx => h ⟨rfl, htx.symm⟩)
      (s.layerAt ci) state
    refine .of_layer (fun key value hv => ?_) fun address info hinfo => ?_
    · rw [layerAt_record, if_pos rfl, hslots] at hv
      exact hv
    · rw [layerAt_record, if_pos rfl, haccounts] at hinfo
      exact hinfo
  · refine .same ?_
    rw [layerAt_record, if_neg hci]

theorem keeps_commit (s : ShadowDb DB) {ci ci' : CommitIndex} {tx tx' : TxIndex} (h : ¬ (ci' = ci ∧ tx' = tx))
    (state : EvmState) : Keeps ci tx s (s.commitTxExecution ci' tx' state) := by
  by_cases hci : ci = ci' ∧ s.layers.contains ci' = true
  · obtain ⟨rfl, hlayer⟩ := hci
    have htx : tx ≠ tx' := fun htx => h ⟨rfl, htx.symm⟩
    obtain ⟨hslots, haccounts⟩ := @RoundLayer.recordState_other s.coinbase tx tx' htx ((s.layerAt ci).cleared tx') state
    refine .of_layer (fun key value hv => ?_) fun address info hinfo => ?_
    · rw [layerAt_commit, if_pos ⟨rfl, hlayer⟩, hslots, RoundLayer.versionsOf_cleared, OrdMap.get?_erase,
        if_neg htx] at hv
      exact hv
    · rw [layerAt_commit, if_pos ⟨rfl, hlayer⟩, haccounts] at hinfo
      exact hinfo
  · refine .same ?_
    rw [layerAt_commit, if_neg hci]

/-- Finalising keeps a layer or drops it. -/
theorem keeps_finalize [DatabaseCommit DB] {s s' : ShadowDb DB} {ci ci' : CommitIndex} {tx : TxIndex}
    {diff : EvmState} (hok : s.finalizeCommit ci' diff = .ok s') : Keeps ci tx s s' := by
  unfold finalizeCommit at hok
  split_ifs at hok
  obtain rfl := Except.ok.inj hok
  by_cases hretained : ci' < ci
  · refine .same ?_
    simp only [layerAt, OrdMap.get?_retain, hretained, decide_true, if_true]
  · refine .empty ?_ ?_
    · simp only [layerAt, OrdMap.get?_retain, hretained, decide_false]
      rfl
    · simp only [layerAt, OrdMap.get?_retain, hretained, decide_false]
      rfl

section
variable [DatabaseRef DB] [DatabaseCommit DB] {s : ShadowDb DB} {ci : CommitIndex} {tx : TxIndex}

/-- **A call** other than recording or committing the transaction of the position keeps it. -/
theorem keeps_call {c : Call} (hrecord : ∀ state, c ≠ .record ci tx state)
    (hcommit : ∀ state, c ≠ .commit ci tx state) : Keeps ci tx s (s.call c) := by
  cases c with
  | setCurrentTx ci' tx' => exact .same rfl
  | ensureLayer ci' => exact .same (layerAt_ensureLayer ..)
  | record ci' tx' state =>
    refine keeps_record s (fun h => ?_) state
    obtain ⟨rfl, rfl⟩ := h
    exact hrecord state rfl
  | abort ci' tx' => exact keeps_abort s ci ci' tx tx'
  | commit ci' tx' state =>
    refine keeps_commit s (fun h => ?_) state
    obtain ⟨rfl, rfl⟩ := h
    exact hcommit state rfl
  | storageRef address index =>
    refine .of_layer (fun key value hv => ?_) fun a info hinfo => ?_
    · rw [call, versionsOf_storageRef] at hv
      exact hv
    · rw [call, accountsOf_storageRef] at hinfo
      exact hinfo
  | basicRef address => exact .same rfl
  | validate ci' => exact .same rfl
  | cascade base changed =>
    rcases s.layerAt_cascade base changed ci with h | h
    · exact .same h
    · refine .empty ?_ ?_
      · rw [call, h]
        rfl
      · rw [call, h]
        rfl
  | stage ci' finalTxOrder =>
    rcases getD_modify s.layers (fun layer => { layer with status := .pendingCommit }) ci' ci with h | h
    · exact .same h
    · refine .of_layer (fun key value hv => ?_) fun a info hinfo => ?_
      · rw [show (s.call (.stage ci' finalTxOrder)).layerAt ci = _ from h] at hv
        exact hv
      · rw [show (s.call (.stage ci' finalTxOrder)).layerAt ci = _ from h] at hinfo
        exact hinfo
  | finalize ci' diff =>
    show Keeps ci tx s (match s.finalizeCommit ci' diff with | .ok s => s | .error _ => s)
    cases hok : s.finalizeCommit ci' diff with
    | error e => exact .same rfl
    | ok s' => exact keeps_finalize hok

/-- What stands at a position after a call that is no commit of its transaction stood there
before it or was recorded by it. -/
theorem call_without_commit {c : Call} (h : ∀ state, c ≠ .commit ci tx state) :
    (∀ key value, (s.call c).version ci tx key = some (.data value) →
      s.version ci tx key = some (.data value) ∨
        ∃ state, c = .record ci tx state ∧ slotWrite state key = some value) ∧
    ∀ address info, (s.call c).accountVersion ci tx address = some info →
      s.accountVersion ci tx address = some info ∨
        ∃ state, c = .record ci tx state ∧ accountWrite s.coinbase state address = some info := by
  by_cases hrecord : ∃ state, c = .record ci tx state
  · obtain ⟨state, rfl⟩ := hrecord
    constructor
    · intro key value hv
      rw [call, version_record] at hv
      cases hw : slotWrite state key with
      | none => exact .inl (by rwa [hw] at hv)
      | some value' =>
        rw [hw] at hv
        cases hv
        exact .inr ⟨state, rfl, hw⟩
    · intro address info hinfo
      rw [call, accountVersion_record] at hinfo
      cases hw : accountWrite s.coinbase state address with
      | none => exact .inl (by rwa [hw] at hinfo)
      | some info' =>
        rw [hw] at hinfo
        cases hinfo
        exact .inr ⟨state, rfl, hw⟩
  · have hkeeps : Keeps ci tx s (s.call c) := keeps_call (fun state hc => hrecord ⟨state, hc⟩) h
    exact ⟨fun key value hv => .inl (hkeeps.slots key value hv),
      fun address info hinfo => .inl (hkeeps.accounts address info hinfo)⟩

/-- The same of a list of calls. -/
theorem calls_without_commit {after : List Call} (h : ∀ state, Call.commit ci tx state ∉ after) :
    (∀ key value, (s.calls after).version ci tx key = some (.data value) →
      s.version ci tx key = some (.data value) ∨
        ∃ state, Call.record ci tx state ∈ after ∧ slotWrite state key = some value) ∧
    ∀ address info, (s.calls after).accountVersion ci tx address = some info →
      s.accountVersion ci tx address = some info ∨
        ∃ state, Call.record ci tx state ∈ after ∧ accountWrite s.coinbase state address = some info := by
  unfold calls
  induction after generalizing s with
  | nil => exact ⟨fun _ _ => .inl, fun _ _ => .inl⟩
  | cons c rest ih =>
    rw [List.foldl_cons]
    obtain ⟨hslots, haccounts⟩ := @ih (s.call c) fun state hmem => h state (List.mem_cons_of_mem _ hmem)
    rw [coinbase_call] at haccounts
    obtain ⟨hslot, haccount⟩ := @call_without_commit _ _ _ s ci tx c
      fun state hc => h state (hc ▸ List.mem_cons_self ..)
    constructor
    · intro key value hv
      rcases hslots key value hv with hv | ⟨state, hmem, hw⟩
      · rcases hslot key value hv with hv | ⟨state, rfl, hw⟩
        · exact .inl hv
        · exact .inr ⟨state, List.mem_cons_self .., hw⟩
      · exact .inr ⟨state, List.mem_cons_of_mem _ hmem, hw⟩
    · intro address info hinfo
      rcases haccounts address info hinfo with hinfo | ⟨state, hmem, hw⟩
      · rcases haccount address info hinfo with hinfo | ⟨state, rfl, hw⟩
        · exact .inl hinfo
        · exact .inr ⟨state, List.mem_cons_self .., hw⟩
      · exact .inr ⟨state, List.mem_cons_of_mem _ hmem, hw⟩

end

/-! ### Aborted and superseded executions -/

section
variable [DatabaseRef DB] {s : ShadowDb DB} {ci : CommitIndex} {tx : TxIndex}

/-- No slot is read from `tx` of round `ci`, at any position, unless one of the `executions`
wrote what is read. -/
def HidesSlots (s : ShadowDb DB) (ci : CommitIndex) (tx : TxIndex) (executions : EvmState → Prop) : Prop :=
  ∀ address index c t, let result := ((s.setCurrentTx c t).storageRef address index).1
    match s.storageSource (slotKey address index) c t with
    | none => result = DatabaseRef.storageRef s.canonical address index
    | some writer => ∃ value, s.version writer.1 writer.2 (slotKey address index) = some (.data value) ∧
        result = .ok value ∧
        (writer = (ci, tx) → ∃ state, executions state ∧ slotWrite state (slotKey address index) = some value)

/-- No account is read from `tx` of round `ci`, at any position, unless one of the
`executions` left the info that is read. -/
def HidesAccounts (s : ShadowDb DB) (ci : CommitIndex) (tx : TxIndex) (executions : EvmState → Prop) : Prop :=
  ∀ address c t, let result := (s.setCurrentTx c t).basicRef address
    match s.accountSource address c t with
    | none => result = DatabaseRef.basicRef s.canonical address
    | some writer => ∃ info, s.accountVersion writer.1 writer.2 address = some info ∧
        result = .ok (some info) ∧
        (writer = (ci, tx) → ∃ state, executions state ∧ accountWrite s.coinbase state address = some info)

/-- The versions of `tx` in round `ci` are those of one execution. -/
def HoldsExactly (s : ShadowDb DB) (ci : CommitIndex) (tx : TxIndex) (state : EvmState) : Prop :=
  (∀ key, s.version ci tx key = (slotWrite state key).map .data) ∧
    ∀ address, address ≠ s.coinbase → s.accountVersion ci tx address = (state.get? address).map Account.info

theorem hidesSlots_of {executions : EvmState → Prop}
    (h : ∀ key value, s.version ci tx key = some (.data value) →
      ∃ state, executions state ∧ slotWrite state key = some value) : s.HidesSlots ci tx executions := by
  intro address index c t result
  obtain ⟨hnone, hsome⟩ := s.storageSource_spec address index c t
  cases hsource : s.storageSource (slotKey address index) c t with
  | none => exact hnone hsource
  | some writer =>
    obtain ⟨value, hversion, hresult⟩ := hsome writer.1 writer.2 hsource
    refine ⟨value, hversion, hresult, fun hwriter => ?_⟩
    subst hwriter
    exact h _ value hversion

theorem hidesAccounts_of {executions : EvmState → Prop}
    (h : ∀ address info, s.accountVersion ci tx address = some info →
      ∃ state, executions state ∧ accountWrite s.coinbase state address = some info) :
    s.HidesAccounts ci tx executions := by
  intro address c t result
  obtain ⟨hnone, hsome⟩ := s.accountSource_spec address c t
  cases hsource : s.accountSource address c t with
  | none => exact hnone hsource
  | some writer =>
    obtain ⟨info, hversion, hresult⟩ := hsome writer.1 writer.2 hsource
    refine ⟨info, hversion, hresult, fun hwriter => ?_⟩
    subst hwriter
    exact h _ info hversion

end

section
variable [DatabaseRef DB] [DatabaseCommit DB] {s : ShadowDb DB} {ci : CommitIndex} {tx : TxIndex}

theorem abort_hidesSlots {after : List Call} (h : ∀ state, Call.commit ci tx state ∉ after) :
    ((s.call (.abort ci tx)).calls after).HidesSlots ci tx (Call.record ci tx · ∈ after) := by
  refine hidesSlots_of fun key value hv => ?_
  rcases (calls_without_commit h).1 key value hv with hv | hrecorded
  · exact absurd hv (version_abort_ne_data key value)
  · exact hrecorded

theorem abort_hidesAccounts {after : List Call} (h : ∀ state, Call.commit ci tx state ∉ after)
    (hnone : ∀ address, s.accountVersion ci tx address = none) :
    ((s.call (.abort ci tx)).calls after).HidesAccounts ci tx (Call.record ci tx · ∈ after) := by
  refine hidesAccounts_of fun address info hinfo => ?_
  rcases (calls_without_commit h).2 address info hinfo with hinfo | hrecorded
  · rw [call, accountVersion_abort, hnone] at hinfo
    cases hinfo
  · rw [coinbase_calls]
    exact hrecorded

/-- Where no newer round has accounts, an abort hides those of the transaction only if there
are none. -/
theorem abort_hidesAccounts_iff (habove : ∀ c, ci < c → ∀ i address, s.accountVersion c i address = none) :
    (s.call (.abort ci tx)).HidesAccounts ci tx (fun _ => False) ↔
      ∀ address, s.accountVersion ci tx address = none := by
  constructor
  · intro hhides address
    cases hversion : s.accountVersion ci tx address with
    | none => rfl
    | some info =>
      have hsource : (s.call (.abort ci tx)).accountSource address ci (tx + 1) = some (ci, tx) := by
        refine @accountSource_own _ _ _ _ _ info ?_ fun c hc i => ?_
        · rw [call, accountVersion_abort, hversion]
        · rw [call, accountVersion_abort, habove c hc i]
      have hread := hhides address ci (tx + 1)
      rw [hsource] at hread
      obtain ⟨info', hinfo', hresult, hexecution⟩ := hread
      obtain ⟨state, hfalse, hwrite⟩ := hexecution rfl
      exact hfalse.elim
  · intro hnone
    refine hidesAccounts_of fun address info hinfo => ?_
    rw [call, accountVersion_abort, hnone] at hinfo
    cases hinfo

/-- **After a commit** the versions of the transaction are those of the execution exactly if
there is a layer to write to and the execution touched all accounts left before. -/
theorem commit_holdsExactly_iff {state : EvmState} :
    (s.call (.commit ci tx state)).HoldsExactly ci tx state ↔
      (s.layers.contains ci = true ∨
        (∀ key, slotWrite state key = none) ∧ ∀ address, address ≠ s.coinbase → state.get? address = none) ∧
      ∀ address, address ≠ s.coinbase → state.get? address = none → s.accountVersion ci tx address = none := by
  unfold HoldsExactly
  rw [coinbase_call]
  by_cases hlayer : s.layers.contains ci = true
  · have hwrite : ∀ address, address ≠ s.coinbase →
        ((s.call (.commit ci tx state)).accountVersion ci tx address = (state.get? address).map Account.info ↔
          (state.get? address = none → s.accountVersion ci tx address = none)) := by
      intro address haddress
      rw [call, accountVersion_commit hlayer, accountWrite, if_neg haddress]
      cases state.get? address with
      | none => simp
      | some account => simp
    constructor
    · intro h
      exact ⟨.inl hlayer, fun address haddress => (hwrite address haddress).mp (h.2 address haddress)⟩
    · intro h
      exact ⟨fun key => version_commit hlayer state key,
        fun address haddress => (hwrite address haddress).mpr (h.2 address haddress)⟩
  · -- nothing is written, and nothing was there
    have hget : s.layers.get? ci = none := by
      cases hget : s.layers.get? ci with
      | none => rfl
      | some layer => exact absurd (by rw [OrdMap.contains, hget]; rfl) hlayer
    have hcall : s.call (.commit ci tx state) = s := by
      rw [call, commitTxExecution, hget]
    have hversion : ∀ key, s.version ci tx key = none := by
      intro key
      rw [version_eq, layerAt, hget]
      rfl
    have haccount : ∀ address, s.accountVersion ci tx address = none := by
      intro address
      rw [accountVersion_eq, layerAt, hget]
      rfl
    rw [hcall]
    constructor
    · intro h
      refine ⟨.inr ⟨fun key => ?_, fun address haddress => ?_⟩, fun address _ _ => haccount address⟩
      · exact Option.map_eq_none_iff.mp ((h.1 key).symm.trans (hversion key))
      · exact Option.map_eq_none_iff.mp ((h.2 address haddress).symm.trans (haccount address))
    · intro h
      rcases h.1 with hcontains | ⟨hslots, haccounts⟩
      · exact absurd hcontains hlayer
      · refine ⟨fun key => ?_, fun address haddress => ?_⟩
        · rw [hversion, hslots]
          rfl
        · rw [haccount, haccounts address haddress]
          rfl

end

/-- **Aborted and superseded executions.** In every history, from an abort of a transaction
until the next commit of it no slot is read from the aborted execution, and no account if it
had left none; where no newer round has accounts, this is needed. And a commit leaves exactly
the versions of the re-execution if it finds a layer and the re-execution touched all accounts
left before, and only then. -/
theorem aborted_writes_hidden [DatabaseRef DB] [DatabaseCommit DB] (canonical : DB) (coinbase : Address)
    (before : List Call) (ci : CommitIndex) (tx : TxIndex) :
    let s := (new canonical coinbase).calls before
    (∀ after, (∀ state, Call.commit ci tx state ∉ after) →
      let later := (s.call (.abort ci tx)).calls after
      later.HidesSlots ci tx (Call.record ci tx · ∈ after) ∧
        ((∀ address, s.accountVersion ci tx address = none) →
          later.HidesAccounts ci tx (Call.record ci tx · ∈ after))) ∧
    ((∀ c, ci < c → ∀ i address, s.accountVersion c i address = none) →
      ((s.call (.abort ci tx)).HidesAccounts ci tx (fun _ => False) ↔
        ∀ address, s.accountVersion ci tx address = none)) ∧
    ∀ state, (s.call (.commit ci tx state)).HoldsExactly ci tx state ↔
      (s.layers.contains ci = true ∨
        (∀ key, slotWrite state key = none) ∧ ∀ address, address ≠ coinbase → state.get? address = none) ∧
      ∀ address, address ≠ coinbase → state.get? address = none → s.accountVersion ci tx address = none := by
  intro s
  have hcoinbase : s.coinbase = coinbase := coinbase_calls _ before
  refine ⟨fun after h => ⟨abort_hidesSlots h, abort_hidesAccounts h⟩, abort_hidesAccounts_iff, fun state => ?_⟩
  rw [commit_holdsExactly_iff, hcoinbase]

/-- An execution that changed only the coinbase leaves no account: it is hidden once aborted,
and superseded by the next one. -/
theorem aborted_writes_hidden_coinbase :
    let s := (new ({} : InMemoryDb) 0).calls [.record 1 0 (oneWrite 7)]
    (∀ address, s.accountVersion 1 0 address = none) ∧
      (s.call (.abort 1 0)).HidesSlots 1 0 (Call.record 1 0 · ∈ []) ∧
      (s.call (.abort 1 0)).HidesAccounts 1 0 (fun _ => False) ∧
      (s.call (.commit 1 0 (oneWrite 8))).HoldsExactly 1 0 (oneWrite 8) := by
  intro s
  have hnone : ∀ c i address, s.accountVersion c i address = none := by
    intro c i address
    show ((new ({} : InMemoryDb) 0).recordTxExecution 1 0 (oneWrite 7)).accountVersion c i address = none
    rw [accountVersion_eq, layerAt_record]
    split_ifs
    · rfl
    · rfl
  obtain ⟨habort, haccounts, hcommit⟩ := aborted_writes_hidden ({} : InMemoryDb) 0 [.record 1 0 (oneWrite 7)] 1 0
  exact ⟨hnone 1 0, (habort [] (by simp)).1, (haccounts fun c _ i address => hnone c i address).mpr (hnone 1 0),
    (hcommit _).mpr ⟨.inl (by decide), fun address _ _ => hnone 1 0 address⟩⟩

/-- The account of an aborted execution is read by the next transaction, and stays when the
re-execution does not touch it. -/
theorem aborted_account_read :
    let s := (new ({} : InMemoryDb) 1).calls [.record 1 0 (oneWrite 7), .abort 1 0]
    s.accountSource 0 1 1 = some (1, 0) ∧
      ((s.setCurrentTx 1 1).basicRef 0).toOption = some (some {}) ∧
      ¬ s.HidesAccounts 1 0 (fun _ => False) ∧
      ¬ (s.call (.commit 1 0 ∅)).HoldsExactly 1 0 ∅ := by
  intro s
  have hsource : s.accountSource 0 1 1 = some (1, 0) := by decide +kernel
  refine ⟨hsource, by decide +kernel, fun h => ?_, fun h => ?_⟩
  · have hread := h 0 1 1
    rw [hsource] at hread
    obtain ⟨info, hinfo, hresult, hexecution⟩ := hread
    obtain ⟨state, hfalse, hwrite⟩ := hexecution rfl
    exact hfalse
  · have haccount : (s.call (.commit 1 0 ∅)).accountVersion 1 0 0 = some {} := by decide +kernel
    have hempty := h.2 0 (by decide)
    rw [haccount] at hempty
    cases hempty

end ShadowDb

end DualOptimistic.Shadow
