import DualOptimistic.Shadow.Isolation

/-! The READLAST rule.

A read of a slot is decided by the newest layer in which the reader sees a version that is
not absent (`Newest`). If the highest such version there is data, its value is returned; if it
is pending, the highest data below it in the layer is, unless that is zero, which the lookup
takes for no value (`readlastStorage_newest`). So data is found exactly as far as it is not a
zero under a pending version (`readlast_data_iff`), and older layers are consulted exactly as
far as no pending version without data is met before (`readlast_fallsThrough_iff`). -/
namespace DualOptimistic.Shadow
open Data

theorem VersionedValue.data?_eq_some {v : VersionedValue} {value : StorageValue} :
    v.data? = some value ↔ v = .data value := by
  cases v with
  | data x => simp [data?]
  | pending => simp [data?]
  | absent => simp [data?]

namespace ShadowDb
variable {DB : Type}

/-! ### What a reader sees of a layer -/

section
variable (s : ShadowDb DB) (key : SlotKey) (ci : CommitIndex) (tx : TxIndex) (c : CommitIndex)

/-- The reader at `(ci, tx)` sees a version of the slot in layer `c` that is not absent. -/
def Touched : Prop := ∃ i v, Visible (c == ci) tx i ∧ s.version c i key = some v ∧ v.isAbsent = false

/-- `c` is the newest such layer. -/
def Newest : Prop := s.Touched key ci tx c ∧ ∀ c', c < c' → ¬ s.Touched key ci tx c'

/-- The reader sees data of the slot in layer `c`. -/
def HasData : Prop := ∃ i value, Visible (c == ci) tx i ∧ s.version c i key = some (.data value)

/-- Version `i`, with `value`, is the highest data the reader sees in layer `c`. -/
def LastData (i : TxIndex) (value : StorageValue) : Prop :=
  Visible (c == ci) tx i ∧ s.version c i key = some (.data value) ∧
    ∀ j value', i < j → Visible (c == ci) tx j → s.version c j key ≠ some (.data value')

/-- In layer `c` the reader sees a pending version above all the data it sees there. -/
def PendingOver : Prop :=
  ∃ i, Visible (c == ci) tx i ∧ s.version c i key = some .pending ∧
    ∀ j value, Visible (c == ci) tx j → s.version c j key = some (.data value) → j < i

/-- The highest data the reader sees in layer `c`. -/
def lastData? : Option (TxIndex × StorageValue) :=
  (s.versionsAt c key).findLast fun i v => if !(c == ci) || decide (i < tx) then v.data? else none

end

section
variable {s : ShadowDb DB} {key : SlotKey} {ci : CommitIndex} {tx : TxIndex} {c : CommitIndex}

theorem data_visible {i : TxIndex} {value : StorageValue} :
    (((s.versionsAt c key).get? i).bind fun v => if !(c == ci) || decide (i < tx) then v.data? else none) =
        some value ↔ Visible (c == ci) tx i ∧ s.version c i key = some (.data value) := by
  unfold version
  cases (s.versionsAt c key).get? i with
  | none => simp
  | some v =>
    by_cases hvis : Visible (c == ci) tx i
    · rw [Option.bind_some, if_pos (visible_iff.mpr hvis), VersionedValue.data?_eq_some]
      simp [hvis]
    · rw [Option.bind_some, if_neg (mt visible_iff.mp hvis)]
      simp [hvis]

theorem data_not_visible {i : TxIndex} :
    (((s.versionsAt c key).get? i).bind fun v => if !(c == ci) || decide (i < tx) then v.data? else none) =
        none ↔ ∀ value, Visible (c == ci) tx i → s.version c i key ≠ some (.data value) := by
  rw [Option.eq_none_iff_forall_ne_some]
  refine forall_congr' fun value => ?_
  rw [ne_eq, data_visible, not_and]

theorem lastData?_eq_some {i : TxIndex} {value : StorageValue} :
    s.lastData? key ci tx c = some (i, value) ↔ s.LastData key ci tx c i value := by
  unfold lastData? LastData
  rw [OrdMap.findLast_eq_some, data_visible, and_assoc]
  refine and_congr_right fun _ => and_congr_right fun _ => ?_
  simp only [data_not_visible]
  exact ⟨fun h j value' hj hvis => h j hj value' hvis, fun h j hj value' hvis => h j value' hj hvis⟩

theorem lastData?_eq_none : s.lastData? key ci tx c = none ↔ ¬ s.HasData key ci tx c := by
  unfold lastData? HasData
  rw [OrdMap.findLast_eq_none]
  simp only [data_not_visible, not_exists, not_and]

/-- Where there is data, some of it is the highest. -/
theorem HasData.exists_last (h : s.HasData key ci tx c) : ∃ i value, s.LastData key ci tx c i value := by
  cases hlast : s.lastData? key ci tx c with
  | none => exact absurd h (lastData?_eq_none.mp hlast)
  | some e => exact ⟨e.1, e.2, lastData?_eq_some.mp hlast⟩

theorem LastData.hasData {i : TxIndex} {value : StorageValue} (h : s.LastData key ci tx c i value) :
    s.HasData key ci tx c :=
  ⟨i, value, h.1, h.2.1⟩

theorem LastData.value_unique {i j : TxIndex} {value value' : StorageValue} (h : s.LastData key ci tx c i value)
    (h' : s.LastData key ci tx c j value') : value = value' := by
  have heq := (lastData?_eq_some.mpr h).symm.trans (lastData?_eq_some.mpr h')
  exact (Prod.mk.inj (Option.some.inj heq)).2

theorem newest_unique {c' : CommitIndex} (h : s.Newest key ci tx c) (h' : s.Newest key ci tx c') : c = c' := by
  rcases Nat.lt_trichotomy c c' with hlt | heq | hgt
  · exact absurd h'.1 (h.2 c' hlt)
  · exact heq
  · exact absurd h.1 (h'.2 c hgt)

theorem HasData.touched (h : s.HasData key ci tx c) : s.Touched key ci tx c := by
  obtain ⟨i, value, hvis, hversion⟩ := h
  exact ⟨i, _, hvis, hversion, rfl⟩

/-- There is a layer wherever there is a version. -/
theorem contains_of_version {i : TxIndex} {v : VersionedValue} (h : s.version c i key = some v) :
    s.layers.contains c = true := by
  cases hlayer : s.layers.get? c with
  | none =>
    rw [version, versionsAt, hlayer] at h
    cases h
  | some layer => exact OrdMap.contains_iff.mpr ⟨layer, hlayer⟩

theorem Touched.contains (h : s.Touched key ci tx c) : s.layers.contains c = true := by
  obtain ⟨i, v, -, hv, -⟩ := h
  exact contains_of_version hv

theorem not_touched_iff : ¬ s.Touched key ci tx c ↔
    readLayer c (c == ci) tx { versions := s.versionsAt c key } = none := by
  rw [readLayer_eq_none, maxWriter_eq_none]
  unfold Touched version
  constructor
  · intro h i v hvis hv
    by_contra habs
    exact h ⟨i, v, hvis, hv, by simpa using habs⟩
  · intro h htouched
    obtain ⟨i, v, hvis, hv, habs⟩ := htouched
    rw [h i v hvis hv] at habs
    cases habs

/-- The layer's own data is what `readlast_in_layer` looks for. -/
theorem readlastInLayer_own (s : ShadowDb DB) (ci : CommitIndex) (k : TxIndex) (key : SlotKey) :
    readlastInLayer { versions := s.versionsAt ci key } k = (s.lastData? key ci k ci).map Prod.snd := by
  rw [readlastInLayer_eq, lastData?]
  simp only [beq_self_eq_true, Bool.not_true, Bool.false_or, decide_eq_true_eq]

/-- Below the last version, if that is pending, stands all the data the reader sees. -/
theorem readlastInLayer_pending {w : TxIndex} (hvis : Visible (c == ci) tx w)
    (hwriter : s.version c w key = some .pending)
    (habove : ∀ i v, w < i → Visible (c == ci) tx i → s.version c i key = some v → v.isAbsent = true) :
    readlastInLayer { versions := s.versionsAt c key } w = (s.lastData? key ci tx c).map Prod.snd := by
  rw [readlastInLayer_eq, lastData?]
  congr 1
  apply OrdMap.findLast_congr
  intro i
  cases hget : (s.versionsAt c key).get? i with
  | none => rfl
  | some v =>
    rw [Option.bind_some, Option.bind_some]
    rcases Nat.lt_trichotomy i w with hlt | heq | hgt
    · rw [if_pos hlt, if_pos (visible_iff.mpr fun hown => hlt.trans (hvis hown))]
    · have hv : v = .pending := Option.some.inj (hget.symm.trans (heq ▸ hwriter))
      rw [hv]
      simp [VersionedValue.data?]
    · rw [if_neg hgt.not_gt]
      by_cases hi : Visible (c == ci) tx i
      · have habs := habove i v hgt hi hget
        cases v with
        | absent => simp [VersionedValue.data?]
        | data value => cases habs
        | pending => cases habs
      · rw [if_neg (mt visible_iff.mp hi)]

/-- **What a touched layer answers**: its highest data, or zero if there is none; and that a
pending version stands above the data, if one does. -/
theorem readLayer_touched (h : s.Touched key ci tx c) :
    ∃ f, readLayer c (c == ci) tx { versions := s.versionsAt c key } = some f ∧ f.writerCi = c ∧
      (f.wasPending = true ↔ s.PendingOver key ci tx c) ∧
      f.value = ((s.lastData? key ci tx c).map Prod.snd).getD 0 ∧
      (f.wasPending = false → s.HasData key ci tx c) := by
  obtain ⟨f, hf⟩ := Option.ne_none_iff_exists'.mp fun hnone => not_touched_iff.mpr hnone h
  obtain ⟨hci, hmax, hcases⟩ := readLayer_cases hf
  obtain ⟨hvis, -⟩ := maxWriter_visible hmax
  have habove : ∀ i v, f.writerTx < i → Visible (c == ci) tx i → s.version c i key = some v →
      v.isAbsent = true := fun i v hi hi' hv => maxWriter_above hmax hi hi' hv
  refine ⟨f, hf, hci, ?_⟩
  rcases hcases with ⟨hpending, hdata⟩ | ⟨hpending, hwriter, hvalue⟩
  · have hlast : s.LastData key ci tx c f.writerTx f.value :=
      ⟨hvis, hdata, fun j value' hj hvis' hv => by cases habove j _ hj hvis' hv⟩
    refine ⟨iff_of_false (by simp [hpending]) ?_, ?_, fun _ => hlast.hasData⟩
    · intro hover
      obtain ⟨i, hi, hv, hall⟩ := hover
      cases habove i _ (hall _ _ hvis hdata) hi hv
    · rw [lastData?_eq_some.mpr hlast]
      rfl
  · refine ⟨iff_of_true hpending ⟨f.writerTx, hvis, hwriter, fun j value hj hv => ?_⟩, ?_, ?_⟩
    · by_contra hlt
      rcases Nat.lt_or_eq_of_le (Nat.le_of_not_lt hlt) with hlt | heq
      · cases habove j _ hlt hj hv
      · have hw : s.version c j key = some .pending := heq ▸ hwriter
        rw [hv] at hw
        cases hw
    · rw [hvalue, readlastInLayer_pending hvis hwriter habove]
    · intro hnot
      rw [hpending] at hnot
      cases hnot

/-! ### What a search finds -/

/-- A search ends at the newest touched layer. -/
theorem searchStorage_newest (h : s.Newest key ci tx c) :
    searchStorage s.layers key ci tx = readLayer c (c == ci) tx { versions := s.versionsAt c key } := by
  obtain ⟨f, hf, -⟩ := readLayer_touched h.1
  rw [searchStorage, searchLayers_eq, hf, Option.map_eq_some_iff]
  refine ⟨(c, f), OrdMap.findLast_eq_some.mpr ⟨?_, fun c' hc' => ?_⟩, rfl⟩
  · rw [bind_readLayer, hf]
  · rw [bind_readLayer]
    exact not_touched_iff.mp (h.2 c' hc')

theorem searchStorage_untouched (h : ∀ c, ¬ s.Touched key ci tx c) :
    searchStorage s.layers key ci tx = none := by
  rw [searchStorage, searchLayers_eq, Option.map_eq_none_iff, OrdMap.findLast_eq_none]
  intro c
  rw [bind_readLayer]
  exact not_touched_iff.mp (h c)

/-- No layer is touched, or one of them is the newest. -/
theorem untouched_or_newest (s : ShadowDb DB) (key : SlotKey) (ci : CommitIndex) (tx : TxIndex) :
    (∀ c, ¬ s.Touched key ci tx c) ∨ ∃ c, s.Newest key ci tx c := by
  cases hfind : s.layers.findLast fun c layer =>
      (layer.slotVersions.get? key).bind (readLayer c (c == ci) tx) with
  | none =>
    refine .inl fun c => not_touched_iff.mpr ?_
    rw [← bind_readLayer]
    exact OrdMap.findLast_eq_none.mp hfind c
  | some e =>
    obtain ⟨hanswer, habove⟩ := OrdMap.findLast_eq_some.mp hfind
    refine .inr ⟨e.1, ?_, fun c hc => not_touched_iff.mpr ?_⟩
    · by_contra hnot
      rw [bind_readLayer, not_touched_iff.mp hnot] at hanswer
      cases hanswer
    · rw [← bind_readLayer]
      exact habove c hc

theorem readlastStorage_eq (s : ShadowDb DB) (key : SlotKey) (ci : CommitIndex) (tx : TxIndex) :
    (s.readlastStorage key ci tx).1 =
      (searchStorage s.layers key ci tx).bind fun f => if f.answers then some f.value else none := by
  rw [readlastStorage]
  cases searchStorage s.layers key ci tx with
  | none => rfl
  | some f => rfl

/-- A read returns what the lookup finds, or what the canonical database holds. -/
theorem storageRef_lookup [DatabaseRef DB] (s : ShadowDb DB) (ci : CommitIndex) (tx : TxIndex)
    (address : Address) (index : StorageKey) :
    ((s.setCurrentTx ci tx).storageRef address index).1 =
      ((s.readlastStorage (slotKey address index) ci tx).1.map Except.ok).getD
        (DatabaseRef.storageRef s.canonical address index) := by
  rw [storageRef_eq, readlastStorage_eq]
  cases searchStorage s.layers (slotKey address index) ci tx with
  | none => rfl
  | some f =>
    simp only [answer, Option.bind_some]
    split_ifs
    · rfl
    · rfl

theorem readlastStorage_untouched (h : ∀ c, ¬ s.Touched key ci tx c) : (s.readlastStorage key ci tx).1 = none := by
  rw [readlastStorage_eq, searchStorage_untouched h]
  rfl

/-- **The lookup** at the newest touched layer. -/
theorem readlastStorage_newest (h : s.Newest key ci tx c) :
    (¬ s.HasData key ci tx c → (s.readlastStorage key ci tx).1 = none) ∧
      ∀ i value, s.LastData key ci tx c i value →
        ((value = 0 ∧ s.PendingOver key ci tx c) ∧ (s.readlastStorage key ci tx).1 = none ∨
          ¬ (value = 0 ∧ s.PendingOver key ci tx c) ∧ (s.readlastStorage key ci tx).1 = some value) := by
  obtain ⟨f, hf, -, hpending, hvalue, hdata⟩ := readLayer_touched h.1
  have hlookup : (s.readlastStorage key ci tx).1 = if f.answers then some f.value else none := by
    rw [readlastStorage_eq, searchStorage_newest h, hf]
    rfl
  have hanswers : f.answers = true ↔ ¬ (f.value = 0 ∧ s.PendingOver key ci tx c) := by
    rw [← hpending, Found.answers]
    cases f.wasPending with
    | false => simp
    | true => simp
  constructor
  · intro hnone
    rw [lastData?_eq_none.mpr hnone] at hvalue
    have hover : f.wasPending = true := by
      by_contra hnot
      exact hnone (hdata (by simpa using hnot))
    rw [hlookup, if_neg fun hans => hanswers.mp hans ⟨hvalue, hpending.mp hover⟩]
  · intro i value hlast
    rw [lastData?_eq_some.mpr hlast] at hvalue
    have hvalue' : f.value = value := hvalue
    rw [hvalue'] at hlookup hanswers
    by_cases hzero : value = 0 ∧ s.PendingOver key ci tx c
    · exact .inl ⟨hzero, by rw [hlookup, if_neg fun hans => hanswers.mp hans hzero]⟩
    · exact .inr ⟨hzero, by rw [hlookup, if_pos (hanswers.mpr hzero)]⟩

end

/-- **READLAST within a layer.** Where the newest layer with a version of the slot that the reader
sees and that is not absent holds data the reader sees, the read returns the highest of it, in
the reader's own layer that which `readlast_in_layer` gives, unless it is a zero under a pending
version: then the canonical value is returned, and has to be zero itself. -/
theorem readlast_data_iff [DatabaseRef DB] (s : ShadowDb DB) (ci : CommitIndex) (tx : TxIndex)
    (address : Address) (index : StorageKey) {c : CommitIndex} {i : TxIndex} {value : StorageValue}
    (hnewest : s.Newest (slotKey address index) ci tx c)
    (hlast : s.LastData (slotKey address index) ci tx c i value) :
    (((s.setCurrentTx ci tx).storageRef address index).1 = .ok value ∧
        (c = ci → readlastInLayer { versions := s.versionsAt ci (slotKey address index) } tx = some value)) ↔
      (value = 0 → s.PendingOver (slotKey address index) ci tx c →
        DatabaseRef.storageRef s.canonical address index = .ok 0) := by
  have hown : c = ci → readlastInLayer { versions := s.versionsAt ci (slotKey address index) } tx = some value := by
    rintro rfl
    rw [readlastInLayer_own, lastData?_eq_some.mpr hlast]
    rfl
  rw [and_iff_left hown, storageRef_lookup]
  rcases (readlastStorage_newest hnewest).2 i value hlast with ⟨hzero, hlookup⟩ | ⟨hzero, hlookup⟩
  · rw [hlookup, hzero.1]
    exact ⟨fun h _ _ => h, fun h => h rfl hzero.2⟩
  · rw [hlookup]
    exact iff_of_true rfl fun hvalue hover => absurd ⟨hvalue, hover⟩ hzero

/-- The touched layer with the highest index of all is the newest. -/
theorem newest_of_keys {s : ShadowDb DB} {key : SlotKey} {ci c : CommitIndex} {tx : TxIndex}
    (h : s.Touched key ci tx c) (hkeys : ∀ c' ∈ s.layers.keys, c' ≤ c) : s.Newest key ci tx c := by
  refine ⟨h, fun c' hc' htouched => ?_⟩
  have hmem := OrdMap.contains_iff_mem_keys.mp htouched.contains
  exact absurd hc' (Nat.not_lt.mpr (hkeys c' hmem))

/-- Slot 0 of account 0 changed from one value to another. -/
def changeSlot (original present : StorageValue) : EvmState :=
  OrdMap.insert ∅ 0 ⟨{}, OrdMap.insert ∅ 0 ⟨original, present⟩⟩

/-- A canonical database with 9 in slot 0 of account 0. -/
def nineInSlot : InMemoryDb := ⟨OrdMap.insert ∅ (slotKey 0 0) 9⟩

/-- Two transactions of round 1 wrote the slot, and the second was aborted. -/
def abortedOver (first second : StorageValue) : ShadowDb InMemoryDb :=
  ((((new nineInSlot 1).recordTxExecution 1 0 (changeSlot 9 first)).recordTxExecution 1 1
    (changeSlot first second)).abortTx 1 1).2

theorem between_zero_two : ∀ {j : Nat}, 0 < j → j < 2 → j = 1 := by omega

/-- Five under an aborted write is read by the next transaction. -/
theorem readlast_data_five :
    (abortedOver 5 7).Newest (slotKey 0 0) 1 2 1 ∧ (abortedOver 5 7).LastData (slotKey 0 0) 1 2 1 0 5 ∧
      ((((abortedOver 5 7).setCurrentTx 1 2).storageRef 0 0).1 = .ok 5 ∧
        ((1 : CommitIndex) = 1 →
          readlastInLayer { versions := (abortedOver 5 7).versionsAt 1 (slotKey 0 0) } 2 = some 5)) := by
  have hnewest : (abortedOver 5 7).Newest (slotKey 0 0) 1 2 1 :=
    newest_of_keys ⟨1, .pending, fun _ => (by decide), by decide +kernel, rfl⟩ (by decide +kernel)
  have hlast : (abortedOver 5 7).LastData (slotKey 0 0) 1 2 1 0 5 := by
    refine ⟨fun _ => (by decide), by decide +kernel, fun j value' hj hvis hv => ?_⟩
    obtain rfl : j = 1 := between_zero_two hj (hvis rfl)
    have hpending : (abortedOver 5 7).version 1 1 (slotKey 0 0) = some .pending := by decide +kernel
    rw [hpending] at hv
    cases hv
  exact ⟨hnewest, hlast, (readlast_data_iff _ 1 2 0 0 hnewest hlast).mpr fun h => absurd h (by decide)⟩

/-- Zero under an aborted write is not: the canonical nine is read. -/
theorem zero_under_pending :
    (abortedOver 0 7).Newest (slotKey 0 0) 1 2 1 ∧ (abortedOver 0 7).LastData (slotKey 0 0) 1 2 1 0 0 ∧
      (((abortedOver 0 7).setCurrentTx 1 2).storageRef 0 0).1 = .ok 9 := by
  refine ⟨newest_of_keys ⟨1, .pending, fun _ => (by decide), by decide +kernel, rfl⟩ (by decide +kernel),
    ⟨fun _ => (by decide), by decide +kernel, fun j value' hj hvis hv => ?_⟩, by decide +kernel⟩
  obtain rfl : j = 1 := between_zero_two hj (hvis rfl)
  have hpending : (abortedOver 0 7).version 1 1 (slotKey 0 0) = some .pending := by decide +kernel
  rw [hpending] at hv
  cases hv

/-! ### Falling through -/

/-- The database without the entry of a slot in one layer. -/
def withoutEntry (s : ShadowDb DB) (c : CommitIndex) (key : SlotKey) : ShadowDb DB :=
  { s with layers := s.layers.modify c fun layer =>
      { layer with slotVersions := layer.slotVersions.erase key } }

theorem versionsAt_withoutEntry (s : ShadowDb DB) (c : CommitIndex) (key : SlotKey) (c' : CommitIndex) :
    (s.withoutEntry c key).versionsAt c' key = if c' = c then ∅ else s.versionsAt c' key := by
  unfold versionsAt withoutEntry
  dsimp only
  rw [OrdMap.get?_modify]
  split_ifs with hc
  · cases s.layers.get? c with
    | none => rfl
    | some layer =>
      rw [Option.map_some, Option.bind_some, OrdMap.get?_erase, if_pos rfl]
      rfl
  · rfl

section
variable {s : ShadowDb DB} {key : SlotKey} {ci : CommitIndex} {tx : TxIndex} {c c' : CommitIndex}

/-- What a reader sees of the other layers stays. -/
theorem readLayer_withoutEntry (h : c' ≠ c) :
    readLayer c' (c' == ci) tx { versions := (s.withoutEntry c key).versionsAt c' key } =
      readLayer c' (c' == ci) tx { versions := s.versionsAt c' key } := by
  rw [versionsAt_withoutEntry, if_neg h]

theorem touched_withoutEntry : (s.withoutEntry c key).Touched key ci tx c' ↔ c' ≠ c ∧ s.Touched key ci tx c' := by
  unfold Touched version
  rw [versionsAt_withoutEntry]
  by_cases hc : c' = c
  · simp [hc]
  · simp [hc]

theorem hasData_withoutEntry : (s.withoutEntry c key).HasData key ci tx c' ↔ c' ≠ c ∧ s.HasData key ci tx c' := by
  unfold HasData version
  rw [versionsAt_withoutEntry]
  by_cases hc : c' = c
  · simp [hc]
  · simp [hc]

/-- Removing a layer's entry matters only if the search ends there. -/
theorem searchStorage_withoutEntry (h : s.Newest key ci tx c') (hc : c' ≠ c) :
    searchStorage (s.withoutEntry c key).layers key ci tx = searchStorage s.layers key ci tx := by
  have hnewest : (s.withoutEntry c key).Newest key ci tx c' :=
    ⟨touched_withoutEntry.mpr ⟨hc, h.1⟩, fun c'' hc'' ht => h.2 c'' hc'' (touched_withoutEntry.mp ht).2⟩
  rw [searchStorage_newest hnewest, searchStorage_newest h, readLayer_withoutEntry hc]

/-- Without data in any layer the lookup finds nothing. -/
theorem readlastStorage_no_data (h : ∀ c, ¬ s.HasData key ci tx c) : (s.readlastStorage key ci tx).1 = none := by
  rcases s.untouched_or_newest key ci tx with huntouched | ⟨c, hnewest⟩
  · exact readlastStorage_untouched huntouched
  · exact (readlastStorage_newest hnewest).1 (h c)

end

/-- The slot reads by the rule: a layer in which the reader sees no data might as well have no
entry, a value comes from the newest layer with data, and the canonical database is asked only
if there is none. -/
structure FallsThrough [DatabaseRef DB] (s : ShadowDb DB) (ci : CommitIndex) (tx : TxIndex)
    (address : Address) (index : StorageKey) : Prop where
  skipped : ∀ c, s.layers.contains c = true → ¬ s.HasData (slotKey address index) ci tx c →
    ((s.setCurrentTx ci tx).storageRef address index).1 =
      (((s.withoutEntry c (slotKey address index)).setCurrentTx ci tx).storageRef address index).1
  descending : ∀ value, (s.readlastStorage (slotKey address index) ci tx).1 = some value →
    ∃ c i, s.LastData (slotKey address index) ci tx c i value ∧
      ∀ c', c < c' → ¬ s.HasData (slotKey address index) ci tx c'
  canonical : (s.readlastStorage (slotKey address index) ci tx).1 = none →
    ∀ c, ¬ s.HasData (slotKey address index) ci tx c

/-- If the reader sees data of the slot anywhere, it does so in the newest layer it sees
anything of, and not just a zero under a pending version. -/
def Unobstructed (s : ShadowDb DB) (key : SlotKey) (ci : CommitIndex) (tx : TxIndex) : Prop :=
  ∀ c, s.Newest key ci tx c → (∃ c', s.HasData key ci tx c') →
    ∃ i value, s.LastData key ci tx c i value ∧ ¬ (value = 0 ∧ s.PendingOver key ci tx c)

/-- **READLAST across layers.** A slot reads by the rule exactly if no pending version without
data, and no zero under one, hides data from the reader. -/
theorem readlast_fallsThrough_iff [DatabaseRef DB] (s : ShadowDb DB) (ci : CommitIndex) (tx : TxIndex)
    (address : Address) (index : StorageKey) :
    s.FallsThrough ci tx address index ↔ s.Unobstructed (slotKey address index) ci tx := by
  constructor
  · intro h c hnewest hdata
    obtain ⟨c', hdata'⟩ := hdata
    obtain ⟨hnone, hsome⟩ := readlastStorage_newest hnewest
    by_cases hhere : s.HasData (slotKey address index) ci tx c
    · obtain ⟨i, value, hlast⟩ := hhere.exists_last
      rcases hsome i value hlast with ⟨-, hlookup⟩ | ⟨hzero, -⟩
      · exact absurd hdata' (h.canonical hlookup c')
      · exact ⟨i, value, hlast, hzero⟩
    · exact absurd hdata' (h.canonical (hnone hhere) c')
  · intro h
    refine ⟨fun c _ hdata => ?_, fun value hvalue => ?_, fun hnone c hdata => ?_⟩
    · rw [storageRef_lookup, storageRef_lookup]
      rcases s.untouched_or_newest (slotKey address index) ci tx with huntouched | ⟨c₀, hnewest⟩
      · have hless : ∀ c', ¬ (s.withoutEntry c (slotKey address index)).Touched (slotKey address index) ci tx c' :=
          fun c' ht => huntouched c' (touched_withoutEntry.mp ht).2
        rw [readlastStorage_untouched huntouched, readlastStorage_untouched hless]
        rfl
      · by_cases hc : c₀ = c
        · -- nothing there, so nothing anywhere
          have hnowhere : ∀ c', ¬ s.HasData (slotKey address index) ci tx c' := by
            intro c' hdata'
            obtain ⟨i, value, hlast, -⟩ := h c₀ hnewest ⟨c', hdata'⟩
            exact hdata (hc ▸ hlast.hasData)
          rw [readlastStorage_no_data hnowhere,
            readlastStorage_no_data fun c' hd => hnowhere c' (hasData_withoutEntry.mp hd).2]
          rfl
        · rw [readlastStorage_eq, readlastStorage_eq, searchStorage_withoutEntry hnewest hc]
          rfl
    · rcases s.untouched_or_newest (slotKey address index) ci tx with huntouched | ⟨c, hnewest⟩
      · rw [readlastStorage_untouched huntouched] at hvalue
        cases hvalue
      · obtain ⟨hnone, hsome⟩ := readlastStorage_newest hnewest
        by_cases hhere : s.HasData (slotKey address index) ci tx c
        · obtain ⟨i, value', hlast⟩ := hhere.exists_last
          rcases hsome i value' hlast with ⟨-, hlookup⟩ | ⟨-, hlookup⟩
          · rw [hlookup] at hvalue
            cases hvalue
          · obtain rfl : value' = value := Option.some.inj (hlookup.symm.trans hvalue)
            exact ⟨c, i, hlast, fun c' hc' hdata => hnewest.2 c' hc' hdata.touched⟩
        · rw [hnone hhere] at hvalue
          cases hvalue
    · rcases s.untouched_or_newest (slotKey address index) ci tx with huntouched | ⟨c₀, hnewest⟩
      · exact huntouched c hdata.touched
      · obtain ⟨i, value, hlast, hzero⟩ := h c₀ hnewest ⟨c, hdata⟩
        rcases (readlastStorage_newest hnewest).2 i value hlast with ⟨hzero', -⟩ | ⟨-, hlookup⟩
        · exact hzero hzero'
        · rw [hlookup] at hnone
          cases hnone

/-- Round 1 wrote five to the slot; the only transaction of round 2 wrote it too and was aborted. -/
def abortedAbove : ShadowDb InMemoryDb :=
  ((((new nineInSlot 1).recordTxExecution 1 0 (changeSlot 9 5)).recordTxExecution 2 0 (changeSlot 5 7)).abortTx
    2 0).2

/-- The next transaction of round 2 reads the canonical nine. -/
theorem pending_hides_older_layer :
    abortedAbove.HasData (slotKey 0 0) 2 1 1 ∧ ((abortedAbove.setCurrentTx 2 1).storageRef 0 0).1 = .ok 9 ∧
      (((abortedAbove.withoutEntry 2 (slotKey 0 0)).setCurrentTx 2 1).storageRef 0 0).1 = .ok 5 ∧
      ¬ abortedAbove.FallsThrough 2 1 0 0 := by
  have hdata : abortedAbove.HasData (slotKey 0 0) 2 1 1 := ⟨0, 5, fun h => (by cases h), by decide +kernel⟩
  exact ⟨hdata, by decide +kernel, by decide +kernel, fun h => h.canonical (by decide +kernel) 1 hdata⟩

end ShadowDb

end DualOptimistic.Shadow
