import DualOptimistic.Data.Machine
import DualOptimistic.Shadow.Validation

/-! What the reads of a re-execution are worth once it is committed.

A commit forgets the values its transaction read, so the validation of the round does not see
them any more. What is left of a read is its entry with the version it was answered from, and
only an abort of that version's transaction looks at it. So the reads of a committed
re-execution stand as long as no transaction between writes the slot, and the version read
from is not written again without an abort (`reexecuted_reads_stand`). -/
namespace DualOptimistic.Shadow
open Data

/-- A slot and the value that was read of it. -/
structure SlotRead where
  key : SlotKey
  value : StorageValue
deriving DecidableEq

/-! ### Pinned reads -/

namespace RoundLayer

/-- The last version below `k` is the one the read was answered from: it holds the value read,
and `k` is registered with it. -/
def Pins (layer : RoundLayer) (k : TxIndex) (r : SlotRead) : Prop :=
  ∃ w, w < k ∧ (layer.versionsOf r.key).get? w = some (.data r.value) ∧
    (∀ i, w < i → i < k → (layer.versionsOf r.key).get? i = none) ∧ k ∈ layer.readersAt r.key w

variable {layer : RoundLayer} {k tx : TxIndex} {r : SlotRead}

/-- Recording an execution keeps a read whose slot it writes only under a version. -/
theorem Pins.recordState (h : layer.Pins k r) {state : EvmState}
    (hunder : slotWrite state r.key ≠ none → tx < k →
      ∃ i, tx < i ∧ i < k ∧ (layer.versionsOf r.key).get? i ≠ none) (coinbase : Address) :
    (layer.recordState coinbase tx state).Pins k r := by
  obtain ⟨w, hw, hdata, hbetween, hreader⟩ := h
  have hsame : ∀ i, w ≤ i → i < k →
      ((layer.recordState coinbase tx state).versionsOf r.key).get? i = (layer.versionsOf r.key).get? i := by
    intro i hwi hik
    rw [versionsOf_recordState]
    cases hwrite : slotWrite state r.key with
    | none => rfl
    | some value =>
      have hne : i ≠ tx := by
        rintro rfl
        -- the version above the write would be between the one read from and the reader
        obtain ⟨j, hij, hjk, hj⟩ := hunder (by rw [hwrite]; exact Option.some_ne_none _) hik
        exact hj (hbetween j (lt_of_le_of_lt hwi hij) hjk)
      exact (OrdMap.get?_insert ..).trans (if_neg hne)
  refine ⟨w, hw, (hsame w le_rfl hw).trans hdata, fun i hwi hik => ?_, ?_⟩
  · exact (hsame i hwi.le hik).trans (hbetween i hwi hik)
  · rwa [readersAt_recordState]

/-- An abort keeps the reads of those it does not notify. -/
theorem Pins.aborted (h : layer.Pins k r) (hnotified : k ∉ layer.readersAt r.key tx) :
    (layer.aborted tx).Pins k r := by
  obtain ⟨w, hw, hdata, hbetween, hreader⟩ := h
  have hne : w ≠ tx := fun heq => hnotified (heq ▸ hreader)
  refine ⟨w, hw, ?_, fun i hwi hik => ?_, ?_⟩
  · rw [versionsOf_aborted, OrdMap.get?_modify, if_neg hne, hdata]
  · rw [versionsOf_aborted, OrdMap.get?_modify]
    split_ifs with hi
    · rw [← hi, hbetween i hwi hik]
      rfl
    · exact hbetween i hwi hik
  · rwa [readersAt_aborted, if_neg hne]

/-- Clearing a transaction keeps the reads of others' confirmed versions. -/
theorem Pins.cleared (h : layer.Pins k r)
    (hopen : ∀ value, (layer.versionsOf r.key).get? tx ≠ some (.data value)) : (layer.cleared tx).Pins k r := by
  obtain ⟨w, hw, hdata, hbetween, hreader⟩ := h
  have hne : w ≠ tx := fun heq => hopen r.value (heq ▸ hdata)
  refine ⟨w, hw, ?_, fun i hwi hik => ?_, ?_⟩
  · rw [versionsOf_cleared, OrdMap.get?_erase, if_neg hne, hdata]
  · rw [versionsOf_cleared, OrdMap.get?_erase]
    split_ifs
    · rfl
    · exact hbetween i hwi hik
  · rwa [readersAt_cleared, if_neg hne]

end RoundLayer

namespace ShadowDb
variable {DB : Type}

section
variable {s : ShadowDb DB} {ci : CommitIndex} {k tx : TxIndex} {r : SlotRead}

theorem versionsAt_eq (s : ShadowDb DB) (c : CommitIndex) (key : SlotKey) :
    s.versionsAt c key = (s.layerAt c).versionsOf key := by
  unfold versionsAt layerAt
  cases s.layers.get? c with
  | none => rfl
  | some layer => rfl

/-- **A pinned read** returns its value. -/
theorem storageRef_pinned [DatabaseRef DB] (h : (s.layerAt ci).Pins k r)
    (halone : ∀ c, c ≠ ci → s.layers.get? c = none) {address : Address} {index : StorageKey}
    (hkey : r.key = slotKey address index) :
    ((s.setCurrentTx ci k).storageRef address index).1 = .ok r.value := by
  obtain ⟨w, hw, hdata, hbetween, -⟩ := h
  rw [hkey, ← versionsAt_eq] at hdata hbetween
  have hwriter : maxWriter { versions := s.versionsAt ci (slotKey address index) } true k = some w := by
    rw [maxWriter_eq]
    refine Option.map_eq_some_iff.mpr ⟨(w, w), OrdMap.findLast_eq_some.mpr ⟨?_, fun i hi => ?_⟩, rfl⟩
    · rw [hdata, Option.bind_some, if_pos (by simpa using hw)]
      rfl
    · by_cases hik : i < k
      · rw [hbetween i hi hik]
        rfl
      · cases (s.versionsAt ci (slotKey address index)).get? i with
        | none => rfl
        | some v => rw [Option.bind_some, if_neg (by simpa using hik)]
  have hread : readLayer ci true k { versions := s.versionsAt ci (slotKey address index) } =
      some ⟨ci, w, r.value, false⟩ := by
    simp only [readLayer, hwriter, hdata]
  rw [storageRef_eq, search_alone halone, hread]
  rfl

/-- A read keeps what is pinned. -/
theorem pins_storageRef [DatabaseRef DB] (h : (s.layerAt ci).Pins k r) (address : Address) (index : StorageKey) :
    ((s.storageRef address index).2.layerAt ci).Pins k r := by
  obtain ⟨w, hw, hdata, hbetween, hreader⟩ := h
  refine ⟨w, hw, ?_, fun i hwi hik => ?_, ?_⟩
  · rw [versionsOf_storageRef, hdata]
  · rw [versionsOf_storageRef, hbetween i hwi hik]
  · exact mem_readersAt_storageRef hreader address index

end

/-! ### Histories of re-executions -/

/-- A call on the layer of a round. -/
inductive ReexecOp where
  | ensureLayer
  | read (tx : TxIndex) (address : Address) (index : StorageKey)
  | record (tx : TxIndex) (state : EvmState)
  | abort (tx : TxIndex)
  | commit (tx : TxIndex) (state : EvmState)

/-- The database, what each re-execution in progress has read, and what the latest one of each
transaction had read when it was committed. An abort that notifies a transaction settles its
reads. -/
structure Reexec (DB : Type) where
  db : ShadowDb DB
  running : TxIndex → Option (List SlotRead)
  reads : TxIndex → List SlotRead

namespace Reexec

def start (canonical : DB) (coinbase : Address) : Reexec DB where
  db := new canonical coinbase
  running := fun _ => none
  reads := fun _ => []

/-- A read that failed has read nothing. -/
def readOf (key : SlotKey) : Except String StorageValue → List SlotRead
  | .ok value => [⟨key, value⟩]
  | .error _ => []

def step [DatabaseRef DB] (ci : CommitIndex) (h : Reexec DB) : ReexecOp → Reexec DB
  | .ensureLayer => { h with db := h.db.ensureLayer ci }
  | .read tx address index =>
    let result := (h.db.setCurrentTx ci tx).storageRef address index
    { h with
      db := result.2
      running := fun k =>
        if k = tx then (h.running k).map (· ++ readOf (slotKey address index) result.1) else h.running k }
  | .record tx state => { h with db := h.db.recordTxExecution ci tx state }
  | .abort tx =>
    let result := h.db.abortTx ci tx
    { db := result.2
      running := fun k =>
        if k = tx then some [] else if k ∈ result.1 then (h.running k).map fun _ => [] else h.running k
      reads := fun k => if k ∈ result.1 then [] else h.reads k }
  | .commit tx state =>
    { db := h.db.commitTxExecution ci tx state
      running := fun k => if k = tx then none else h.running k
      reads := fun k => if k = tx then (h.running tx).getD [] else h.reads k }

def run [DatabaseRef DB] (ci : CommitIndex) (h : Reexec DB) (ops : List ReexecOp) : Reexec DB :=
  ops.foldl (step ci) h

/-- A re-execution is an abort, reads, and a commit: nothing is recorded between, and nothing
else is committed. -/
def Proper (h : Reexec DB) : ReexecOp → Prop
  | .record tx _ => h.running tx = none
  | .commit tx _ => h.running tx ≠ none
  | _ => True

/-- An execution writes no slot that a later transaction read when it was re-executed, unless
one between has a version of it. -/
def WritesUnder (ci : CommitIndex) (h : Reexec DB) (tx : TxIndex) (state : EvmState) : Prop :=
  ∀ k, tx < k → ∀ r ∈ h.reads k, slotWrite state r.key ≠ none →
    ∃ i, tx < i ∧ i < k ∧ h.db.version ci i r.key ≠ none

/-- A call is careful if it writes under what was read, and commits no read that is not pinned. -/
def Careful (ci : CommitIndex) (h : Reexec DB) : ReexecOp → Prop
  | .record tx state => h.WritesUnder ci tx state
  | .commit tx state => h.WritesUnder ci tx state ∧ ∀ r ∈ (h.running tx).getD [], (h.db.layerAt ci).Pins tx r
  | _ => True

/-- If the round validates, what the latest re-executions read is what they would read now. -/
def Stands [DatabaseRef DB] (ci : CommitIndex) (h : Reexec DB) : Prop :=
  h.db.validateRound ci = [] → ∀ k address index value, ⟨slotKey address index, value⟩ ∈ h.reads k →
    ((h.db.setCurrentTx ci k).storageRef address index).1 = .ok value

/-- What careful calls keep: there is no other layer, a transaction in re-execution has no
confirmed version, and all reads are pinned. -/
structure Sound (ci : CommitIndex) (h : Reexec DB) : Prop where
  alone : ∀ c, c ≠ ci → h.db.layers.get? c = none
  unconfirmed : ∀ k, h.running k ≠ none → ∀ key value, h.db.version ci k key ≠ some (.data value)
  pinned : ∀ k, ∀ r ∈ h.reads k, (h.db.layerAt ci).Pins k r

theorem sound_start (canonical : DB) (coinbase : Address) (ci : CommitIndex) :
    (start canonical coinbase).Sound ci where
  alone := fun _ _ => rfl
  unconfirmed := fun _ hrunning => absurd rfl hrunning
  pinned := fun _ _ hr => absurd hr List.not_mem_nil

variable {ci : CommitIndex} {h : Reexec DB}

theorem Sound.ensureLayer (hs : h.Sound ci) : Sound ci { h with db := h.db.ensureLayer ci } where
  alone := by
    intro c hc
    exact (OrdMap.get?_upsert ..).trans ((if_neg hc).trans (hs.alone c hc))
  unconfirmed := by
    intro k hrunning key value
    rw [version_eq, layerAt_ensureLayer, ← version_eq]
    exact hs.unconfirmed k hrunning key value
  pinned := by
    intro k r hr
    rw [layerAt_ensureLayer]
    exact hs.pinned k r hr

/-- A read changes neither versions nor reads that are committed. -/
theorem Sound.read [DatabaseRef DB] (hs : h.Sound ci) (tx : TxIndex) (address : Address) (index : StorageKey) :
    (h.step ci (.read tx address index)).Sound ci where
  alone := by
    intro c hc
    show ((h.db.setCurrentTx ci tx).storageRef address index).2.layers.get? c = none
    have hnone : (h.db.setCurrentTx ci tx).layers.get? c = none := hs.alone c hc
    rcases (h.db.setCurrentTx ci tx).storageRef_db address index with heq | ⟨f, heq⟩
    · rw [heq, hnone]
    · rw [heq]
      exact get?_recordRead_none hnone ..
  unconfirmed := by
    intro k hrunning key value
    show ((h.db.setCurrentTx ci tx).storageRef address index).2.version ci k key ≠ _
    rw [version_eq, versionsOf_storageRef]
    refine version_eq h.db ci k key ▸ hs.unconfirmed k (fun hnone => hrunning ?_) key value
    show (if k = tx then (h.running k).map _ else h.running k) = none
    rw [hnone]
    split_ifs
    · rfl
    · rfl
  pinned := by
    intro k r hr
    exact @pins_storageRef _ (h.db.setCurrentTx ci tx) ci k r _ (hs.pinned k r hr) address index

/-- Recording keeps what is pinned if it writes under it. -/
theorem Sound.record [DatabaseRef DB] (hs : h.Sound ci) {tx : TxIndex} {state : EvmState}
    (hproper : h.running tx = none) (hunder : h.WritesUnder ci tx state) :
    (h.step ci (.record tx state)).Sound ci where
  alone := by
    intro c hc
    exact (OrdMap.get?_upsert ..).trans ((if_neg hc).trans (hs.alone c hc))
  unconfirmed := by
    intro k hrunning key value
    have hne : k ≠ tx := fun heq => hrunning (heq ▸ hproper)
    show (h.db.recordTxExecution ci tx state).version ci k key ≠ _
    rw [version_eq, layerAt_record, if_pos rfl, (RoundLayer.recordState_other _ hne _ _).1, ← version_eq]
    exact hs.unconfirmed k hrunning key value
  pinned := by
    intro k r hr
    show ((h.db.recordTxExecution ci tx state).layerAt ci).Pins k r
    rw [layerAt_record, if_pos rfl]
    refine (hs.pinned k r hr).recordState (fun hwrite hk => ?_) _
    obtain ⟨i, hi, hik, hv⟩ := hunder k hk r hr hwrite
    exact ⟨i, hi, hik, version_eq h.db ci i r.key ▸ hv⟩

/-- An abort settles the reads of what it takes away. -/
theorem Sound.abort [DatabaseRef DB] (hs : h.Sound ci) (tx : TxIndex) : (h.step ci (.abort tx)).Sound ci where
  alone := by
    intro c hc
    show (h.db.abortTx ci tx).2.layers.get? c = none
    unfold abortTx
    cases h.db.layers.get? ci with
    | none => exact hs.alone c hc
    | some layer => exact (OrdMap.get?_insert ..).trans ((if_neg hc).trans (hs.alone c hc))
  unconfirmed := by
    intro k hrunning key value hv
    have hv' : (h.db.abortTx ci tx).2.version ci k key = some (.data value) := hv
    by_cases hk : k = tx
    · subst hk
      exact version_abort_ne_data key value hv'
    · rw [version_eq, layerAt_abort, if_pos rfl, RoundLayer.versionsOf_aborted, OrdMap.get?_modify, if_neg hk,
        ← version_eq] at hv'
      refine hs.unconfirmed k (fun hnone => hrunning ?_) key value hv'
      show (if k = tx then some [] else if k ∈ (h.db.abortTx ci tx).1 then (h.running k).map _ else h.running k) = none
      rw [if_neg hk, hnone]
      split_ifs
      · rfl
      · rfl
  pinned := by
    intro k r hr
    have hreads : r ∈ if k ∈ (h.db.abortTx ci tx).1 then [] else h.reads k := hr
    split_ifs at hreads with hnotified
    · cases hreads
    · show ((h.db.abortTx ci tx).2.layerAt ci).Pins k r
      rw [layerAt_abort, if_pos rfl]
      exact (hs.pinned k r hreads).aborted fun hreader => hnotified (mem_abortTx.mpr ⟨_, hreader⟩)

/-- A commit makes the reads of a re-execution those of its transaction. -/
theorem Sound.commit [DatabaseRef DB] (hs : h.Sound ci) {tx : TxIndex} {state : EvmState}
    (hproper : h.running tx ≠ none) (hunder : h.WritesUnder ci tx state)
    (hpinned : ∀ r ∈ (h.running tx).getD [], (h.db.layerAt ci).Pins tx r) :
    (h.step ci (.commit tx state)).Sound ci where
  alone := by
    intro c hc
    show (h.db.commitTxExecution ci tx state).layers.get? c = none
    unfold commitTxExecution
    cases h.db.layers.get? ci with
    | none => exact hs.alone c hc
    | some layer => exact (OrdMap.get?_insert ..).trans ((if_neg hc).trans (hs.alone c hc))
  unconfirmed := by
    intro k hrunning key value hv
    have hne : k ≠ tx := fun heq => hrunning (if_pos heq)
    have hv' : (h.db.commitTxExecution ci tx state).version ci k key = some (.data value) := hv
    refine hs.unconfirmed k (fun hnone => hrunning ((if_neg hne).trans hnone)) key value ?_
    rw [version_eq, layerAt_commit] at hv'
    split_ifs at hv'
    · rw [(RoundLayer.recordState_other _ hne _ _).1, RoundLayer.versionsOf_cleared, OrdMap.get?_erase, if_neg hne,
        ← version_eq] at hv'
      exact hv'
    · rwa [← version_eq] at hv'
  pinned := by
    intro k r hr
    show ((h.db.commitTxExecution ci tx state).layerAt ci).Pins k r
    -- the reads committed now are pinned, and those from before are too
    have hpins : (h.db.layerAt ci).Pins k r := by
      have hreads : r ∈ if k = tx then (h.running tx).getD [] else h.reads k := hr
      split_ifs at hreads with hk
      · exact hk ▸ hpinned r hreads
      · exact hs.pinned k r hreads
    rw [layerAt_commit]
    split_ifs
    · have hopen : ∀ value, ((h.db.layerAt ci).versionsOf r.key).get? tx ≠ some (.data value) := by
        intro value
        rw [← version_eq]
        exact hs.unconfirmed tx hproper r.key value
      refine (hpins.cleared hopen).recordState (fun hwrite hk => ?_) _
      have hreads : r ∈ h.reads k := by
        have hreads : r ∈ if k = tx then (h.running tx).getD [] else h.reads k := hr
        rwa [if_neg hk.ne'] at hreads
      obtain ⟨i, hi, hik, hv⟩ := hunder k hk r hreads hwrite
      refine ⟨i, hi, hik, ?_⟩
      rw [RoundLayer.versionsOf_cleared, OrdMap.get?_erase, if_neg hi.ne', ← version_eq]
      exact hv
    · exact hpins

/-- **A careful call keeps all reads pinned.** -/
theorem Sound.step [DatabaseRef DB] (hs : h.Sound ci) {op : ReexecOp} (hproper : h.Proper op)
    (hcareful : h.Careful ci op) : (h.step ci op).Sound ci := by
  cases op with
  | ensureLayer => exact hs.ensureLayer
  | read tx address index => exact hs.read tx address index
  | record tx state => exact hs.record hproper hcareful
  | abort tx => exact hs.abort tx
  | commit tx state => exact hs.commit hproper hcareful.1 hcareful.2

theorem Sound.stands [DatabaseRef DB] (hs : h.Sound ci) : h.Stands ci := by
  intro _ k address index value hr
  exact storageRef_pinned (hs.pinned k _ hr) hs.alone rfl

/-- **Re-executions.** In a history of reads, records, aborts and commits on one layer, in which
a re-execution is an abort, reads and a commit, and in which all calls are careful: in every
state reached, if the round validates, every slot value that the latest re-execution of a
transaction read is what it would read now, unless an abort since has notified it. -/
theorem reexecuted_reads_stand [DatabaseRef DB] (canonical : DB) (coinbase : Address) (ci : CommitIndex)
    (ops : List ReexecOp)
    (h : Along (step ci) (fun h op => h.Proper op ∧ h.Careful ci op) (start canonical coinbase) ops) :
    ∀ done, done <+: ops → ((start canonical coinbase).run ci done).Stands ci := by
  intro done hdone
  have hsound : ((start canonical coinbase).run ci done).Sound ci :=
    Along.keeps (fun _ _ hs hop => hs.step hop.1 hop.2) (sound_start canonical coinbase ci) h done hdone
  exact hsound.stands

/-- Transaction 1 is re-executed and reads the value of transaction 0; transaction 2 writes the
slot after that. -/
theorem reexecuted_in_order :
    let ops : List ReexecOp :=
      [.record 0 (oneWrite 7), .abort 1, .read 1 0 0, .commit 1 ∅, .record 2 (oneWrite 9)]
    let h := (start EmptyDb.mk 1).run 1 ops
    Along (step 1) (fun h op => h.Proper op ∧ h.Careful 1 op) (start EmptyDb.mk 1) ops ∧
      h.db.validateRound 1 = [] ∧ h.reads 1 = [⟨slotKey 0 0, 7⟩] ∧ h.Stands 1 := by
  intro ops h
  have halong : Along (step 1) (fun h op => h.Proper op ∧ h.Careful 1 op) (start EmptyDb.mk 1) ops := by
    refine ⟨⟨rfl, fun k _ r hr => ?_⟩, ⟨trivial, trivial⟩, ⟨trivial, trivial⟩,
      ⟨Option.some_ne_none _, fun k _ r _ hwrite => absurd rfl hwrite, fun r hr => ?_⟩,
      ⟨rfl, fun k hk r hr => ?_⟩, trivial⟩
    · cases hr
    · have hrunning : (((start EmptyDb.mk 1).run 1 (ops.take 3)).running 1).getD [] = [⟨slotKey 0 0, 7⟩] := by
        decide +kernel
      obtain rfl := List.mem_singleton.mp (hrunning ▸ hr)
      exact ⟨0, Nat.one_pos, by decide +kernel, fun i hi hik => absurd hik (Nat.not_lt.mpr hi), by decide +kernel⟩
    · simp only [step, (Nat.lt_of_succ_lt hk).ne', if_false, start] at hr
      cases hr
  exact ⟨halong, by decide +kernel, by decide +kernel,
    reexecuted_reads_stand EmptyDb.mk 1 1 ops halong ops (List.prefix_refl _)⟩

/-- Transaction 1 writes the slot after transaction 2 has been re-executed and has read it: the
round validates, and the read is stale. -/
theorem reexecuted_read_not_validated :
    let ops : List ReexecOp :=
      [.record 0 (oneWrite 7), .abort 2, .read 2 0 0, .commit 2 ∅, .record 1 (oneWrite 9)]
    let h := (start EmptyDb.mk 1).run 1 ops
    Along (step 1) Proper (start EmptyDb.mk 1) ops ∧
      searchStorage ((start EmptyDb.mk 1).run 1 [.record 0 (oneWrite 7), .abort 2]).db.layers (slotKey 0 0) 1 2 =
        some ⟨1, 0, 7, false⟩ ∧
      h.db.validateRound 1 = [] ∧ ⟨slotKey 0 0, 7⟩ ∈ h.reads 2 ∧
      ((h.db.setCurrentTx 1 2).storageRef 0 0).1 = .ok 9 ∧ ¬ h.Stands 1 := by
  intro ops h
  refine ⟨⟨rfl, trivial, trivial, Option.some_ne_none _, rfl, trivial⟩, by decide +kernel, by decide +kernel,
    by decide +kernel, by decide +kernel, fun hstands => ?_⟩
  exact absurd (hstands (by decide +kernel) 2 0 0 7 (by decide +kernel)) (by decide +kernel)

end Reexec

end ShadowDb

end DualOptimistic.Shadow
