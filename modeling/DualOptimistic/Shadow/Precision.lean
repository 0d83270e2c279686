import DualOptimistic.Shadow.Finalization
import DualOptimistic.Shadow.Validation

/-! Which of the conflicts a validation reports are real.

`validate_round` compares each recorded read with the highest data below its transaction in the
layer of the round, and only there. A read that was answered by an older layer or by the
canonical database is passed over if the layer has no entry for its slot, and reported if it has
one without data below the transaction. So current reads are not reported exactly if every slot
read has no entry, or data below the reader that is not a zero under a pending version
(`validate_precise_iff`). -/
namespace DualOptimistic.Shadow
open Data

namespace ShadowDb
variable {DB : Type}

/-! ### What a validation reports -/

/-- The entry of a slot in a layer. -/
def entryAt (s : ShadowDb DB) (ci : CommitIndex) (key : SlotKey) : Option SlotVersions :=
  (s.layers.get? ci).bind (·.slotVersions.get? key)

section
variable {s : ShadowDb DB} {ci : CommitIndex} {k : TxIndex} {key : SlotKey}

theorem mem_recordedReads_remembered {r : RecordedRead} :
    r ∈ s.recordedReads ↔ s.remembered r.ci r.tx r.key = some r.value := by
  rw [mem_recordedReads, remembered]
  simp only [Option.bind_eq_some_iff]
  constructor
  · intro h
    obtain ⟨layer, reads, hlayer, hreads, hvalue⟩ := h
    exact ⟨reads, ⟨layer, hlayer, hreads⟩, hvalue⟩
  · intro h
    obtain ⟨reads, ⟨layer, hlayer, hreads⟩, hvalue⟩ := h
    exact ⟨layer, reads, hlayer, hreads, hvalue⟩

/-- Only a layer remembers. -/
theorem contains_of_remembered {value : StorageValue} (h : s.remembered ci k key = some value) :
    s.layers.contains ci = true := by
  obtain ⟨reads, hreads, -⟩ := Option.bind_eq_some_iff.mp h
  obtain ⟨layer, hlayer, -⟩ := Option.bind_eq_some_iff.mp hreads
  exact OrdMap.contains_iff.mpr ⟨layer, hlayer⟩

theorem readlastInLayer_entry {sv : SlotVersions} (h : s.entryAt ci key = some sv) :
    readlastInLayer sv k = readlastInLayer { versions := s.versionsAt ci key } k := by
  have hversions : s.versionsAt ci key = sv.versions := by
    rw [versionsAt, show (s.layers.get? ci).bind (·.slotVersions.get? key) = some sv from h]
    rfl
  rw [hversions]
  rfl

theorem readsStand_iff {layer : RoundLayer} {reads : OrdMap SlotKey StorageValue} :
    readsStand layer k reads = true ↔ ∀ key value, reads.get? key = some value →
      ∀ sv, layer.slotVersions.get? key = some sv → readlastInLayer sv k = some value := by
  rw [readsStand, List.all_eq_true]
  constructor
  · intro h key value hvalue sv hsv
    have hentry := h (key, value) (OrdMap.get?_eq_some_iff.mp hvalue)
    rwa [hsv, beq_iff_eq] at hentry
  · intro h e he
    cases hsv : layer.slotVersions.get? e.1 with
    | none => rfl
    | some sv => exact beq_iff_eq.mpr (h e.1 e.2 (OrdMap.get?_eq_some_iff.mpr he) sv hsv)

/-- **A validation reports** the transactions with a recorded read whose slot has an entry in the
layer, with another value below the transaction. -/
theorem mem_validateRound : k ∈ s.validateRound ci ↔
    ∃ key value sv, s.remembered ci k key = some value ∧ s.entryAt ci key = some sv ∧
      readlastInLayer sv k ≠ some value := by
  unfold validateRound remembered entryAt
  cases hlayer : s.layers.get? ci with
  | none => simp
  | some layer =>
    dsimp only
    rw [mem_sortedDedup, List.mem_map]
    simp only [Option.bind_some, List.mem_filter, Bool.not_eq_true', Bool.eq_false_iff, ne_eq, readsStand_iff]
    constructor
    · intro h
      obtain ⟨⟨k', reads⟩, ⟨hmem, hnot⟩, rfl⟩ := h
      push Not at hnot
      obtain ⟨key, value, hvalue, sv, hsv, hne⟩ := hnot
      refine ⟨key, value, sv, ?_, hsv, hne⟩
      rw [OrdMap.get?_eq_some_iff.mpr hmem]
      exact hvalue
    · intro h
      obtain ⟨key, value, sv, hvalue, hsv, hne⟩ := h
      obtain ⟨reads, hreads, hvalue⟩ := Option.bind_eq_some_iff.mp hvalue
      exact ⟨(k, reads), ⟨OrdMap.get?_eq_some_iff.mp hreads, fun hall => hne (hall key value hvalue sv hsv)⟩, rfl⟩

/-! ### Current reads -/

/-- Every read the layer remembers of the transaction has the value the lookup finds now, if it
finds one. -/
def Agrees (s : ShadowDb DB) (ci : CommitIndex) (k : TxIndex) : Prop :=
  ∀ key value, s.remembered ci k key = some value →
    (s.readlastStorage key ci k).1 = some value ∨ (s.readlastStorage key ci k).1 = none

/-- Every slot the transaction has read has no entry in the layer, or data below the transaction;
if the highest of it is zero under a pending version, then zero is what was read. -/
def Precise (s : ShadowDb DB) (ci : CommitIndex) (k : TxIndex) : Prop :=
  ∀ key value, s.remembered ci k key = some value → s.entryAt ci key = none ∨
    ∃ i last, s.LastData key ci k ci i last ∧ (last = 0 → s.PendingOver key ci k ci → value = 0)

/-- Where no newer layer is seen, a read that the lookup agrees with stands in its layer exactly
if the layer has data of its slot, and not a zero that the lookup took for nothing. -/
theorem stands_iff {value : StorageValue} (habove : ∀ c, ci < c → ¬ s.Touched key ci k c)
    (hagree : (s.readlastStorage key ci k).1 = some value ∨ (s.readlastStorage key ci k).1 = none) :
    readlastInLayer { versions := s.versionsAt ci key } k = some value ↔
      ∃ i last, s.LastData key ci k ci i last ∧ (last = 0 → s.PendingOver key ci k ci → value = 0) := by
  rw [readlastInLayer_own]
  constructor
  · intro h
    obtain ⟨⟨i, last⟩, hlast, rfl⟩ := Option.map_eq_some_iff.mp h
    exact ⟨i, last, lastData?_eq_some.mp hlast, fun hzero _ => hzero⟩
  · intro h
    obtain ⟨i, last, hlast, hzero⟩ := h
    have hnewest : s.Newest key ci k ci := ⟨hlast.hasData.touched, habove⟩
    rw [lastData?_eq_some.mpr hlast, Option.map_some]
    rcases (readlastStorage_newest hnewest).2 i last hlast with ⟨⟨rfl, hover⟩, -⟩ | ⟨-, hlookup⟩
    · rw [hzero rfl hover]
    · rcases hagree with hsome | hnone
      · exact hlookup.symm.trans hsome
      · rw [hlookup] at hnone
        cases hnone

/-- **The conflicts of a transaction** whose reads the lookup agrees with. -/
theorem not_mem_validateRound_iff (hagree : s.Agrees ci k) (habove : ∀ key c, ci < c → ¬ s.Touched key ci k c) :
    k ∉ s.validateRound ci ↔ s.Precise ci k := by
  rw [mem_validateRound]
  constructor
  · intro h key value hvalue
    cases hentry : s.entryAt ci key with
    | none => exact .inl rfl
    | some sv =>
      refine .inr ((stands_iff (habove key) (hagree key value hvalue)).mp ?_)
      by_contra hne
      exact h ⟨key, value, sv, hvalue, hentry, by rwa [readlastInLayer_entry hentry]⟩
  · intro h hreported
    obtain ⟨key, value, sv, hvalue, hentry, hne⟩ := hreported
    rcases h key value hvalue with hnone | hprecise
    · rw [hentry] at hnone
      cases hnone
    · rw [readlastInLayer_entry hentry] at hne
      exact hne ((stands_iff (habove key) (hagree key value hvalue)).mpr hprecise)

/-- Reads that would return the same now agree with the lookup. -/
theorem agrees_of_current [DatabaseRef DB]
    (h : ∀ r ∈ s.recordedReads, r.ci = ci → r.tx = k → s.Current r) : s.Agrees ci k := by
  intro key value hvalue
  have hcurrent := h ⟨ci, k, key, value⟩ (mem_recordedReads_remembered.mpr hvalue) rfl rfl
  rw [Current, storageRef_lookup] at hcurrent
  have hkey : slotKey (ofLex key).1 (ofLex key).2 = key := rfl
  dsimp only at hcurrent
  rw [hkey] at hcurrent
  cases hlookup : (s.readlastStorage key ci k).1 with
  | none => exact .inr rfl
  | some found =>
    rw [hlookup] at hcurrent
    exact .inl (congrArg some (Except.ok.inj hcurrent))

/-! ### Calls that change no version -/

/-- The same versions stand in both. -/
def SameVersions (s s' : ShadowDb DB) : Prop := ∀ c i key, s.version c i key = s'.version c i key

theorem searchStorage_sameVersions {s s' : ShadowDb DB} (h : SameVersions s s') (key : SlotKey) (ci : CommitIndex)
    (tx : TxIndex) : searchStorage s.layers key ci tx = searchStorage s'.layers key ci tx := by
  rw [searchStorage, searchStorage, searchLayers_eq, searchLayers_eq]
  congr 1
  apply OrdMap.findLast_congr
  intro c
  rw [bind_readLayer, bind_readLayer]
  exact readLayer_congr fun i _ => h c i key

theorem readlastStorage_sameVersions {s s' : ShadowDb DB} (h : SameVersions s s') (key : SlotKey) (ci : CommitIndex)
    (tx : TxIndex) : (s.readlastStorage key ci tx).1 = (s'.readlastStorage key ci tx).1 := by
  rw [readlastStorage_eq, readlastStorage_eq, searchStorage_sameVersions h]

theorem SameVersions.touched {s s' : ShadowDb DB} (h : SameVersions s s') {key : SlotKey} {ci c : CommitIndex}
    {tx : TxIndex} : s.Touched key ci tx c ↔ s'.Touched key ci tx c := by
  unfold Touched
  simp only [h c _ key]

theorem sameVersions_storageRef [DatabaseRef DB] (s : ShadowDb DB) (address : Address) (index : StorageKey) :
    SameVersions (s.storageRef address index).2 s := by
  intro c i key
  rw [version_eq, version_eq, versionsOf_storageRef]

theorem txReads_recordRead (layers : OrdMap CommitIndex RoundLayer) (key : SlotKey) (ci : CommitIndex)
    (tx : TxIndex) (f : Found) (c : CommitIndex) :
    ((recordRead layers key ci tx f).get? c).map RoundLayer.txReads =
      ((layers.get? c).map RoundLayer.txReads).map fun reads =>
        if f.answers = true ∧ c = ci then reads.upsert tx ∅ (·.insert key f.value) else reads := by
  have hregistered : ((layers.modify f.writerCi (·.addReader key f.writerTx tx)).get? c).map RoundLayer.txReads =
      (layers.get? c).map RoundLayer.txReads := by
    rw [OrdMap.get?_modify]
    split_ifs with hc
    · rw [hc, Option.map_map]
      rfl
    · rfl
  rw [← hregistered]
  have hrecord : recordRead layers key ci tx f =
      if f.answers then (layers.modify f.writerCi (·.addReader key f.writerTx tx)).modify ci fun layer =>
        { layer with txReads := layer.txReads.upsert tx ∅ (·.insert key f.value) }
      else layers.modify f.writerCi (·.addReader key f.writerTx tx) := rfl
  rw [hrecord]
  by_cases hanswers : f.answers = true
  · rw [if_pos hanswers, OrdMap.get?_modify]
    by_cases hc : c = ci
    · simp only [hanswers, hc, if_true, and_self, Option.map_map]
      rfl
    · simp only [hc, if_false, and_false, Option.map_id']
  · rw [if_neg hanswers]
    simp only [hanswers, Bool.false_eq_true, false_and, if_false, Option.map_id']

/-- **What is remembered after a read**: what the lookup found, if it found anything and the
reader's round has a layer. -/
theorem remembered_storageRef [DatabaseRef DB] (s : ShadowDb DB) (address : Address) (index : StorageKey)
    (c : CommitIndex) (k : TxIndex) (key : SlotKey) :
    (s.storageRef address index).2.remembered c k key =
      if (c = s.currentCommitIndex ∧ k = s.currentTx ∧ key = slotKey address index) ∧ s.layers.contains c = true
      then (s.readlastStorage key c k).1.or (s.remembered c k key) else s.remembered c k key := by
  have hremembered : ∀ s : ShadowDb DB, s.remembered c k key =
      (((s.layers.get? c).map RoundLayer.txReads).bind (·.get? k)).bind (·.get? key) := by
    intro s
    rw [remembered]
    cases s.layers.get? c with
    | none => rfl
    | some layer => rfl
  have heq := storageRef_eq s s.currentCommitIndex s.currentTx address index
  have hself : s.setCurrentTx s.currentCommitIndex s.currentTx = s := rfl
  rw [hself] at heq
  rw [heq]
  cases hsearch : searchStorage s.layers (slotKey address index) s.currentCommitIndex s.currentTx with
  | none =>
    split_ifs with hat
    · obtain ⟨⟨rfl, rfl, rfl⟩, -⟩ := hat
      rw [readlastStorage_eq, hsearch]
      rfl
    · rfl
  | some f =>
    rw [hremembered, hremembered s, txReads_recordRead]
    cases hlayer : s.layers.get? c with
    | none => simp [OrdMap.contains, hlayer]
    | some layer =>
      have hcontains : s.layers.contains c = true := OrdMap.contains_iff.mpr ⟨layer, hlayer⟩
      simp only [Option.map_some, Option.bind_some, hcontains, and_true]
      by_cases hat : c = s.currentCommitIndex ∧ k = s.currentTx ∧ key = slotKey address index
      · obtain ⟨rfl, rfl, rfl⟩ := hat
        rw [readlastStorage_eq, hsearch]
        cases hanswers : f.answers with
        | false => simp [hanswers]
        | true => simp [hanswers]
      · rw [if_neg hat]
        split_ifs with hanswers
        · rw [OrdMap.get?_upsert]
          by_cases hk : k = s.currentTx
          · have hkey : key ≠ slotKey address index := fun hkey => hat ⟨hanswers.2, hk, hkey⟩
            rw [if_pos hk, Option.bind_some, OrdMap.get?_insert, if_neg hkey, hk]
            cases layer.txReads.get? s.currentTx with
            | none => rfl
            | some reads => rfl
          · rw [if_neg hk]
        · rfl

theorem remembered_eq (s : ShadowDb DB) (ci : CommitIndex) (k : TxIndex) (key : SlotKey) :
    s.remembered ci k key = ((s.layerAt ci).txReads.get? k).bind (·.get? key) := by
  rw [remembered, layerAt]
  cases s.layers.get? ci with
  | none => rfl
  | some layer => rfl

/-- **What a call remembers** was remembered before it, or was found by a read at the position. -/
theorem remembered_call [DatabaseRef DB] [DatabaseCommit DB] {c : Call} {value : StorageValue}
    (h : (s.call c).remembered ci k key = some value) : s.remembered ci k key = some value ∨
      (s.call c).SameVersions s ∧ (s.readlastStorage key ci k).1 = some value := by
  cases c with
  | storageRef address index =>
    rw [call, remembered_storageRef] at h
    split_ifs at h with hat
    · rcases Option.or_eq_some_iff.mp h with hfound | ⟨-, hbefore⟩
      · exact .inr ⟨sameVersions_storageRef s address index, hfound⟩
      · exact .inl hbefore
    · exact .inl h
  | setCurrentTx | basicRef | validate => exact .inl h
  | ensureLayer ci' =>
    rw [remembered_eq, call, layerAt_ensureLayer, ← remembered_eq] at h
    exact .inl h
  | record ci' tx state =>
    rw [remembered_eq, call, layerAt_record] at h
    rw [remembered_eq]
    split_ifs at h with hci
    · rw [RoundLayer.recordState_txReads, ← hci] at h
      exact .inl h
    · exact .inl h
  | abort ci' tx =>
    rw [remembered_eq, call, layerAt_abort] at h
    rw [remembered_eq]
    split_ifs at h with hci
    · rw [hci]
      exact .inl h
    · exact .inl h
  | commit ci' tx state =>
    rw [remembered_eq, call, layerAt_commit] at h
    rw [remembered_eq]
    split_ifs at h with hci
    · rw [RoundLayer.recordState_txReads, RoundLayer.cleared, OrdMap.get?_erase, ← hci.1] at h
      split_ifs at h
      · cases h
      · exact .inl h
    · exact .inl h
  | cascade base changed =>
    rw [remembered_eq, call] at h
    rw [remembered_eq]
    rcases s.layerAt_cascade base changed ci with heq | heq
    · rw [heq] at h
      exact .inl h
    · rw [heq] at h
      cases h
  | stage ci' finalTxOrder =>
    rw [remembered_eq] at h ⊢
    rcases getD_modify s.layers (fun layer => { layer with status := .pendingCommit }) ci' ci with heq | heq
    · rw [show (s.call (.stage ci' finalTxOrder)).layerAt ci = _ from heq] at h
      exact .inl h
    · rw [show (s.call (.stage ci' finalTxOrder)).layerAt ci = _ from heq] at h
      exact .inl h
  | finalize ci' diff =>
    rw [call, finalizeCommit_eq] at h
    split_ifs at h
    · have hlayers : (s.finalized ci' diff).layers.get? ci = if ci' < ci then s.layers.get? ci else none := by
        simp [finalized]
      have hlater : (s.finalized ci' diff).remembered ci k key = some value := h
      rw [remembered, hlayers] at hlater
      split_ifs at hlater
      · exact .inl hlater
      · cases hlater
    · exact .inl h

/-- A call that changes no version leaves the reads in agreement. -/
theorem Agrees.call [DatabaseRef DB] [DatabaseCommit DB] {c : Call} (h : s.Agrees ci k)
    (hsame : (s.call c).SameVersions s) : (s.call c).Agrees ci k := by
  intro key value hvalue
  rw [readlastStorage_sameVersions hsame]
  rcases remembered_call hvalue with hbefore | ⟨-, hfound⟩
  · exact h key value hbefore
  · exact .inl hfound

theorem Agrees.calls [DatabaseRef DB] [DatabaseCommit DB] {later : List Call} (h : s.Agrees ci k)
    (hsame : ∀ done, done <+: later → (s.calls done).SameVersions s) : (s.calls later).Agrees ci k := by
  induction later using List.reverseRecOn with
  | nil => exact h
  | append_singleton later c ih =>
    have hcalls : s.calls (later ++ [c]) = (s.calls later).call c := List.foldl_concat ..
    have hbefore := hsame later (List.prefix_append later [c])
    have hafter := hsame (later ++ [c]) (List.prefix_refl _)
    rw [hcalls] at hafter ⊢
    refine (ih fun done hdone => hsame done (hdone.trans (List.prefix_append ..))).call ?_
    exact fun c i key => (hafter c i key).trans (hbefore c i key).symm

/-! ### Reading again -/

/-- The transaction reads slots, one after the other. -/
def rereads (ci : CommitIndex) (k : TxIndex) (slots : List (Address × StorageKey)) : List Call :=
  .setCurrentTx ci k :: slots.map fun slot => .storageRef slot.1 slot.2

/-- **A transaction that has read its slots again**: what is remembered of them agrees with the
lookup, and of others nothing new is remembered. -/
theorem storageRefs_spec [DatabaseRef DB] [DatabaseCommit DB] (slots : List (Address × StorageKey))
    (s : ShadowDb DB) (hci : s.currentCommitIndex = ci) (hk : s.currentTx = k) :
    let read := s.calls (slots.map fun slot => .storageRef slot.1 slot.2)
    read.SameVersions s ∧ ∀ key value, read.remembered ci k key = some value →
      ((s.readlastStorage key ci k).1 = some value ∨ (s.readlastStorage key ci k).1 = none) ∨
        s.remembered ci k key = some value ∧ ∀ slot ∈ slots, slotKey slot.1 slot.2 ≠ key := by
  induction slots generalizing s with
  | nil => exact ⟨fun _ _ _ => rfl, fun key value h => .inr ⟨h, fun slot hslot => (by cases hslot)⟩⟩
  | cons slot rest ih =>
    have hcurrent : (s.storageRef slot.1 slot.2).2.currentCommitIndex = ci ∧
        (s.storageRef slot.1 slot.2).2.currentTx = k := by
      rcases s.storageRef_db slot.1 slot.2 with hdb | ⟨f, hdb⟩
      · rw [hdb]
        exact ⟨hci, hk⟩
      · rw [hdb]
        exact ⟨hci, hk⟩
    obtain ⟨hrest, hagree⟩ := ih (s.storageRef slot.1 slot.2).2 hcurrent.1 hcurrent.2
    have hsame := sameVersions_storageRef s slot.1 slot.2
    refine ⟨fun c i key => (hrest c i key).trans (hsame c i key), fun key value hvalue => ?_⟩
    rw [← readlastStorage_sameVersions hsame]
    rcases hagree key value hvalue with hlookup | ⟨hbefore, hother⟩
    · exact .inl hlookup
    · rw [readlastStorage_sameVersions hsame]
      by_cases hkey : key = slotKey slot.1 slot.2
      · left
        rw [remembered_storageRef] at hbefore
        split_ifs at hbefore with hat
        · rcases Option.or_eq_some_iff.mp hbefore with hfound | ⟨hnone, -⟩
          · exact .inl hfound
          · exact .inr hnone
        · exact absurd ⟨⟨hci.symm, hk.symm, hkey⟩, contains_of_remembered hbefore⟩ hat
      · refine .inr ⟨?_, ?_⟩
        · rw [remembered_storageRef, if_neg fun hat => hkey hat.1.2.2] at hbefore
          exact hbefore
        · intro slot' hslot'
          rcases List.mem_cons.mp hslot' with rfl | hmem
          · exact fun h => hkey h.symm
          · exact hother slot' hmem

end

/-- **The precision of a validation.** Where all layers are of the round or older, a transaction
whose recorded reads would all return the same now is not reported exactly if every slot it read
has no entry in the layer of the round, or data below the transaction that is no zero under a
pending version, save for a zero read. The same holds after the transaction has read its slots
again, as long as no version changes. -/
theorem validate_precise_iff [DatabaseRef DB] [DatabaseCommit DB] (s : ShadowDb DB) (ci : CommitIndex)
    (k : TxIndex) (hlayers : ∀ c, s.layers.contains c = true → c ≤ ci) :
    ((∀ r ∈ s.recordedReads, r.ci = ci → r.tx = k → s.Current r) →
      (k ∉ s.validateRound ci ↔ s.Precise ci k)) ∧
    ∀ slots later,
      (∀ r ∈ s.recordedReads, r.ci = ci → r.tx = k → ∃ slot ∈ slots, slotKey slot.1 slot.2 = r.key) →
      (∀ done, done <+: later → ((s.calls (rereads ci k slots)).calls done).SameVersions s) →
      (k ∉ ((s.calls (rereads ci k slots)).calls later).validateRound ci ↔
        ((s.calls (rereads ci k slots)).calls later).Precise ci k) := by
  have habove : ∀ key c, ci < c → ¬ s.Touched key ci k c :=
    fun key c hc htouched => Nat.not_lt.mpr (hlayers c htouched.contains) hc
  refine ⟨fun hcurrent => not_mem_validateRound_iff (agrees_of_current hcurrent) habove, ?_⟩
  intro slots later hslots hsame
  obtain ⟨hread, hagree⟩ := storageRefs_spec slots (s.setCurrentTx ci k) rfl rfl
  have hagrees : (s.calls (rereads ci k slots)).Agrees ci k := by
    intro key value hvalue
    have hlookup : ((s.calls (rereads ci k slots)).readlastStorage key ci k).1 =
        ((s.setCurrentTx ci k).readlastStorage key ci k).1 := readlastStorage_sameVersions hread key ci k
    rw [hlookup]
    rcases hagree key value hvalue with hagree | ⟨hbefore, hother⟩
    · exact hagree
    · obtain ⟨slot, hslot, hkey⟩ := hslots ⟨ci, k, key, value⟩ (mem_recordedReads_remembered.mpr hbefore) rfl rfl
      exact absurd hkey (hother slot hslot)
  refine not_mem_validateRound_iff (hagrees.calls fun done hdone c i key => ?_) fun key c hc htouched => ?_
  · exact (hsame done hdone c i key).trans (hread c i key).symm
  · exact habove key c hc ((hsame later (List.prefix_refl _)).touched.mp htouched)

/-- TX 1 of round 1 read what TX 0 wrote. -/
def readBelow : ShadowDb InMemoryDb :=
  (new nineInSlot 1).calls [.record 1 0 (changeSlot 9 5), .setCurrentTx 1 1, .storageRef 0 0]

/-- TX 0 of round 2 read what round 1 wrote; then TX 1 of round 2 wrote the slot. -/
def readAcross : ShadowDb InMemoryDb :=
  (new nineInSlot 1).calls [.record 1 0 (changeSlot 9 5), .ensureLayer 2, .setCurrentTx 2 0, .storageRef 0 0,
    .record 2 1 (changeSlot 5 7)]

/-- A read within the round is not reported as long as it is current. -/
theorem validate_precise_below : readBelow.recordedReads = [⟨1, 1, slotKey 0 0, 5⟩] ∧
    (∀ c, readBelow.layers.contains c = true → c ≤ 1) ∧ 1 ∉ readBelow.validateRound 1 := by
  have hlayers : ∀ c, readBelow.layers.contains c = true → c ≤ 1 := by
    intro c hc
    have hkeys : ∀ c ∈ readBelow.layers.keys, c ≤ 1 := by decide +kernel
    exact hkeys c (OrdMap.contains_iff_mem_keys.mp hc)
  have hreads : readBelow.recordedReads = [⟨1, 1, slotKey 0 0, 5⟩] := by decide +kernel
  refine ⟨hreads, hlayers, ((validate_precise_iff readBelow 1 1 hlayers).1 fun r hr _ _ => ?_).mpr ?_⟩
  · rw [hreads, List.mem_singleton] at hr
    subst hr
    show ((readBelow.setCurrentTx 1 1).storageRef 0 0).1 = .ok 5
    decide +kernel
  · intro key value hvalue
    have hr : ⟨1, 1, key, value⟩ ∈ readBelow.recordedReads := mem_recordedReads_remembered.mpr hvalue
    rw [hreads, List.mem_singleton] at hr
    obtain ⟨-, -, rfl, rfl⟩ := RecordedRead.mk.inj hr
    refine .inr ⟨0, 5, ⟨fun _ => (by decide), by decide +kernel, fun j value' hj hvis => ?_⟩, fun h => absurd h (by decide)⟩
    exact absurd (hvis rfl) (Nat.not_lt.mpr hj)

/-- A read of the round before is, though it is current. -/
theorem current_read_reported : (∀ c, readAcross.layers.contains c = true → c ≤ 2) ∧
    readAcross.recordedReads = [⟨2, 0, slotKey 0 0, 5⟩] ∧ readAcross.Current ⟨2, 0, slotKey 0 0, 5⟩ ∧
      0 ∈ readAcross.validateRound 2 := by
  refine ⟨fun c hc => ?_, by decide +kernel, ?_, by decide +kernel⟩
  · have hkeys : ∀ c ∈ readAcross.layers.keys, c ≤ 2 := by decide +kernel
    exact hkeys c (OrdMap.contains_iff_mem_keys.mp hc)
  · show ((readAcross.setCurrentTx 2 0).storageRef 0 0).1 = .ok 5
    decide +kernel

end ShadowDb

end DualOptimistic.Shadow
