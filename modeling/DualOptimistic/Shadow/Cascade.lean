import DualOptimistic.Shadow.Readlast

/-! What a cascade invalidation leaves behind.

The speculative layers above a base that wrote or read a changed slot are emptied, and no
others. A layer that survives has read none of the changed slots, but it may have read other
slots from a layer that was emptied. Such a read stays current exactly if the next older layer
with versions of the slot that was not emptied shows the reader the same value, or else the
canonical database does (`cascade_current_iff`). -/
namespace DualOptimistic.Shadow
open Data

/-- A read that a layer remembers. -/
structure RecordedRead where
  ci : CommitIndex
  tx : TxIndex
  key : SlotKey
  value : StorageValue
deriving DecidableEq

/-- The layer with its versions and reads cleared. -/
def RoundLayer.emptied (layer : RoundLayer) : RoundLayer :=
  { layer with slotVersions := ∅, accountVersions := ∅, txReads := ∅ }

namespace ShadowDb
variable {DB : Type}

/-- The reads in the `tx_reads` of all layers. -/
def recordedReads (s : ShadowDb DB) : List RecordedRead :=
  s.layers.entries.flatMap fun e => e.2.txReads.entries.flatMap fun t =>
    t.2.entries.map fun x => ⟨e.1, t.1, x.1, x.2⟩

/-- The recorded read would return the same now. -/
def Current [DatabaseRef DB] (s : ShadowDb DB) (r : RecordedRead) : Prop :=
  ((s.setCurrentTx r.ci r.tx).storageRef (ofLex r.key).1 (ofLex r.key).2).1 = .ok r.value

/-- The layer is above the base, and speculative. -/
def SpeculativeAbove (s : ShadowDb DB) (base c : CommitIndex) : Prop :=
  base < c ∧ ∃ layer, s.layers.get? c = some layer ∧ layer.status = .speculative

/-- The layer is above the base, speculative, and wrote or read a changed slot. -/
def Hit (base : CommitIndex) (changed : OrdSet SlotKey) (c : CommitIndex) (layer : RoundLayer) : Prop :=
  base < c ∧ layer.status = .speculative ∧ touches layer changed = true

instance (base : CommitIndex) (changed : OrdSet SlotKey) (c : CommitIndex) (layer : RoundLayer) :
    Decidable (Hit base changed c layer) := inferInstanceAs (Decidable (_ ∧ _))

/-- There is a layer at `c`, and it is hit. -/
def HitAt (s : ShadowDb DB) (base : CommitIndex) (changed : OrdSet SlotKey) (c : CommitIndex) : Prop :=
  ∃ layer, s.layers.get? c = some layer ∧ Hit base changed c layer

/-- The versions in layer `c` show the reader the value: it is their highest data, and not a zero
under a pending version. -/
def Shows (s : ShadowDb DB) (key : SlotKey) (ci : CommitIndex) (tx : TxIndex) (c : CommitIndex)
    (value : StorageValue) : Prop :=
  (∃ i, s.LastData key ci tx c i value) ∧ ¬ (value = 0 ∧ s.PendingOver key ci tx c)

/-- `c` is the newest layer, of those that are not hit, with a version for the reader. -/
def NewestKept (s : ShadowDb DB) (base : CommitIndex) (changed : OrdSet SlotKey) (key : SlotKey)
    (ci : CommitIndex) (tx : TxIndex) (c : CommitIndex) : Prop :=
  (¬ s.HitAt base changed c ∧ s.Touched key ci tx c) ∧
    ∀ c', c < c' → s.Touched key ci tx c' → s.HitAt base changed c'

/-- Every recorded read of a speculative layer above the base that is not hit, if the newest version
of its slot sits in a layer that is hit, has the same value below: in the newest layer with a
version that is not hit, or in the canonical database if no such layer shows one. -/
def Undisturbed [DatabaseRef DB] (s : ShadowDb DB) (base : CommitIndex) (changed : OrdSet SlotKey) : Prop :=
  ∀ r ∈ s.recordedReads, s.SpeculativeAbove base r.ci → ¬ s.HitAt base changed r.ci →
    ∀ w, s.Newest r.key r.ci r.tx w → s.HitAt base changed w →
      (∃ c, s.NewestKept base changed r.key r.ci r.tx c ∧ s.Shows r.key r.ci r.tx c r.value) ∨
      (∀ c value, s.NewestKept base changed r.key r.ci r.tx c → ¬ s.Shows r.key r.ci r.tx c value) ∧
        DatabaseRef.storageRef s.canonical (ofLex r.key).1 (ofLex r.key).2 = .ok r.value

/-! ### Layers after the cascade -/

variable {s : ShadowDb DB} {base : CommitIndex} {changed : OrdSet SlotKey}

theorem mem_recordedReads {r : RecordedRead} : r ∈ s.recordedReads ↔
    ∃ layer reads, s.layers.get? r.ci = some layer ∧ layer.txReads.get? r.tx = some reads ∧
      reads.get? r.key = some r.value := by
  simp only [recordedReads, List.mem_flatMap, List.mem_map, OrdMap.get?_eq_some_iff]
  constructor
  · intro h
    obtain ⟨e, he, t, ht, x, hx, rfl⟩ := h
    exact ⟨e.2, t.2, he, ht, hx⟩
  · intro h
    obtain ⟨layer, reads, hlayer, hreads, hvalue⟩ := h
    exact ⟨_, hlayer, _, hreads, _, hvalue, rfl⟩

theorem get?_cascade (c : CommitIndex) :
    (s.cascadeInvalidate base changed).2.layers.get? c = (s.layers.get? c).map fun layer =>
      if Hit base changed c layer then layer.emptied else layer := by
  show (s.layers.mapValues _).get? c = _
  rw [OrdMap.get?_mapValues]
  refine congrArg (fun f => (s.layers.get? c).map f) (funext fun layer => ?_)
  simp only [Hit, Bool.and_eq_true, decide_eq_true_eq, and_assoc]
  rfl

theorem mem_cascade {c : CommitIndex} : c ∈ (s.cascadeInvalidate base changed).1 ↔ s.HitAt base changed c := by
  unfold HitAt
  simp only [cascadeInvalidate, List.mem_map, List.mem_filter, Bool.and_eq_true, decide_eq_true_eq, and_assoc]
  constructor
  · intro h
    obtain ⟨e, he, hbase, hstatus, htouches, rfl⟩ := h
    exact ⟨e.2, OrdMap.get?_eq_some_iff.mpr he, hbase, hstatus, htouches⟩
  · intro h
    obtain ⟨layer, hlayer, hbase, hstatus, htouches⟩ := h
    exact ⟨(c, layer), OrdMap.get?_eq_some_iff.mp hlayer, hbase, hstatus, htouches, rfl⟩

theorem get?_cascade_of_not_hit {c : CommitIndex} (h : ¬ s.HitAt base changed c) :
    (s.cascadeInvalidate base changed).2.layers.get? c = s.layers.get? c := by
  rw [get?_cascade]
  cases hlayer : s.layers.get? c with
  | none => rfl
  | some layer => rw [Option.map_some, if_neg fun hhit => h ⟨layer, hlayer, hhit⟩]

/-- A layer that is hit has no versions left. -/
theorem version_cascade_of_hit {c : CommitIndex} (h : s.HitAt base changed c) (i : TxIndex) (key : SlotKey) :
    (s.cascadeInvalidate base changed).2.version c i key = none := by
  obtain ⟨layer, hlayer, hhit⟩ := h
  rw [version, versionsAt, get?_cascade, hlayer, Option.map_some, if_pos hhit]
  rfl

theorem version_cascade_of_not_hit {c : CommitIndex} (h : ¬ s.HitAt base changed c) (i : TxIndex) (key : SlotKey) :
    (s.cascadeInvalidate base changed).2.version c i key = s.version c i key := by
  rw [version, versionsAt, get?_cascade_of_not_hit h]
  rfl

section
variable {key : SlotKey} {ci c : CommitIndex} {tx : TxIndex}

theorem touched_cascade : (s.cascadeInvalidate base changed).2.Touched key ci tx c ↔
    ¬ s.HitAt base changed c ∧ s.Touched key ci tx c := by
  unfold Touched
  by_cases hhit : s.HitAt base changed c
  · refine iff_of_false (fun h => ?_) fun h => h.1 hhit
    obtain ⟨i, v, -, hv, -⟩ := h
    rw [version_cascade_of_hit hhit] at hv
    cases hv
  · simp only [version_cascade_of_not_hit hhit, and_iff_right hhit]

/-- The newest version is in the newest of the layers that are left. -/
theorem newest_cascade : (s.cascadeInvalidate base changed).2.Newest key ci tx c ↔
    s.NewestKept base changed key ci tx c := by
  unfold Newest NewestKept
  simp only [touched_cascade, not_and, not_imp_not]

theorem shows_cascade {value : StorageValue} (h : ¬ s.HitAt base changed c) :
    (s.cascadeInvalidate base changed).2.Shows key ci tx c value ↔ s.Shows key ci tx c value := by
  unfold Shows LastData PendingOver
  simp only [version_cascade_of_not_hit h]

end

/-! ### The reads of the survivors -/

/-- **A read is current** if the newest layer with a version shows its value, or none shows any and
the canonical database holds it. -/
theorem current_iff [DatabaseRef DB] {r : RecordedRead} : s.Current r ↔
    (∃ c, s.Newest r.key r.ci r.tx c ∧ s.Shows r.key r.ci r.tx c r.value) ∨
      (∀ c value, s.Newest r.key r.ci r.tx c → ¬ s.Shows r.key r.ci r.tx c value) ∧
        DatabaseRef.storageRef s.canonical (ofLex r.key).1 (ofLex r.key).2 = .ok r.value := by
  have hkey : slotKey (ofLex r.key).1 (ofLex r.key).2 = r.key := rfl
  rw [Current, storageRef_lookup, hkey]
  rcases s.untouched_or_newest r.key r.ci r.tx with huntouched | ⟨c, hnewest⟩
  · rw [readlastStorage_untouched huntouched]
    constructor
    · exact fun hcanonical => .inr ⟨fun c _ hnewest => absurd hnewest.1 (huntouched c), hcanonical⟩
    · rintro (⟨c, hnewest, -⟩ | ⟨-, hcanonical⟩)
      · exact absurd hnewest.1 (huntouched c)
      · exact hcanonical
  · have honly : ∀ {c'}, s.Newest r.key r.ci r.tx c' → c' = c := fun h => newest_unique h hnewest
    obtain ⟨hnone, hsome⟩ := readlastStorage_newest hnewest
    by_cases hshows : ∃ value, s.Shows r.key r.ci r.tx c value
    · obtain ⟨value, ⟨i, hlast⟩, hzero⟩ := hshows
      rcases hsome i value hlast with ⟨hzero', -⟩ | ⟨-, hlookup⟩
      · exact absurd hzero' hzero
      · rw [hlookup]
        constructor
        · intro hvalue
          obtain rfl : value = r.value := Except.ok.inj hvalue
          exact .inl ⟨c, hnewest, ⟨i, hlast⟩, hzero⟩
        · rintro (⟨c', hnewest', ⟨i', hlast'⟩, -⟩ | ⟨hall, -⟩)
          · rw [honly hnewest'] at hlast'
            exact congrArg Except.ok (hlast.value_unique hlast')
          · exact absurd ⟨⟨i, hlast⟩, hzero⟩ (hall c value hnewest)
    · have hlookup : (s.readlastStorage r.key r.ci r.tx).1 = none := by
        by_cases hdata : s.HasData r.key r.ci r.tx c
        · obtain ⟨i, value, hlast⟩ := hdata.exists_last
          rcases hsome i value hlast with ⟨-, hlookup⟩ | ⟨hzero, -⟩
          · exact hlookup
          · exact absurd ⟨value, ⟨i, hlast⟩, hzero⟩ hshows
        · exact hnone hdata
      rw [hlookup]
      constructor
      · refine fun hcanonical => .inr ⟨fun c' value hnewest' hshown => hshows ⟨value, ?_⟩, hcanonical⟩
        exact honly hnewest' ▸ hshown
      · rintro (⟨c', hnewest', hshown⟩ | ⟨-, hcanonical⟩)
        · exact absurd ⟨_, honly hnewest' ▸ hshown⟩ hshows
        · exact hcanonical

/-- The same after the cascade, in terms of what was there before. -/
theorem current_cascade_iff [DatabaseRef DB] {r : RecordedRead} :
    (s.cascadeInvalidate base changed).2.Current r ↔
      (∃ c, s.NewestKept base changed r.key r.ci r.tx c ∧ s.Shows r.key r.ci r.tx c r.value) ∨
      (∀ c value, s.NewestKept base changed r.key r.ci r.tx c → ¬ s.Shows r.key r.ci r.tx c value) ∧
        DatabaseRef.storageRef s.canonical (ofLex r.key).1 (ofLex r.key).2 = .ok r.value := by
  have hshows : ∀ {c value}, s.NewestKept base changed r.key r.ci r.tx c →
      ((s.cascadeInvalidate base changed).2.Shows r.key r.ci r.tx c value ↔ s.Shows r.key r.ci r.tx c value) :=
    fun hkept => shows_cascade hkept.1.1
  rw [current_iff]
  simp only [newest_cascade]
  refine or_congr (exists_congr fun c => and_congr_right hshows) (and_congr_left fun _ => ?_)
  exact forall_congr' fun c => forall_congr' fun value => imp_congr_right fun hkept => not_congr (hshows hkept)

/-- Layers that are hit matter only to the reads whose newest version they hold. -/
theorem newestKept_of_newest {key : SlotKey} {ci w c : CommitIndex} {tx : TxIndex}
    (hnewest : s.Newest key ci tx w) (hkept : ¬ s.HitAt base changed w) :
    s.NewestKept base changed key ci tx c ↔ s.Newest key ci tx c := by
  have hw : s.NewestKept base changed key ci tx w :=
    ⟨⟨hkept, hnewest.1⟩, fun c' hc' htouched => absurd htouched (hnewest.2 c' hc')⟩
  constructor
  · intro hc
    obtain rfl : c = w := newest_unique (newest_cascade.mpr hc) (newest_cascade.mpr hw)
    exact hnewest
  · intro hc
    obtain rfl : c = w := newest_unique hc hnewest
    exact hw

/-- A current read stays current if its newest version, if there is one, is in a layer that is not hit. -/
theorem Current.cascade [DatabaseRef DB] {r : RecordedRead} (h : s.Current r)
    (hkept : ∀ w, s.Newest r.key r.ci r.tx w → ¬ s.HitAt base changed w) :
    (s.cascadeInvalidate base changed).2.Current r := by
  rw [current_cascade_iff]
  rw [current_iff] at h
  rcases s.untouched_or_newest r.key r.ci r.tx with huntouched | ⟨w, hnewest⟩
  · rcases h with ⟨c, hnewest, -⟩ | ⟨-, hcanonical⟩
    · exact absurd hnewest.1 (huntouched c)
    · exact .inr ⟨fun c _ hc => absurd hc.1.2 (huntouched c), hcanonical⟩
  · simp only [newestKept_of_newest hnewest (hkept w hnewest)]
    exact h

/-- A layer that is above the base, speculative and not hit has read no changed slot. -/
theorem unchanged_of_not_hit {layer : RoundLayer} {c : CommitIndex} (hc : base < c)
    (hstatus : layer.status = .speculative) (hhit : ¬ Hit base changed c layer) {tx : TxIndex}
    {reads : OrdMap SlotKey StorageValue} (hreads : layer.txReads.get? tx = some reads) {key : SlotKey}
    {value : StorageValue} (hkey : reads.get? key = some value) : changed.contains key = false := by
  refine Bool.eq_false_iff.mpr fun hchanged => hhit ⟨hc, hstatus, ?_⟩
  refine Bool.or_eq_true_iff.mpr (.inr (List.any_eq_true.mpr ⟨key, ?_, hchanged⟩))
  refine List.mem_flatMap.mpr ⟨reads, ?_, ?_⟩
  · exact List.mem_map.mpr ⟨(tx, reads), OrdMap.get?_eq_some_iff.mp hreads, rfl⟩
  · exact List.mem_map.mpr ⟨(key, value), OrdMap.get?_eq_some_iff.mp hkey, rfl⟩

/-- The surviving reads are those of the layers that are not hit. -/
theorem mem_recordedReads_cascade {r : RecordedRead} :
    r ∈ (s.cascadeInvalidate base changed).2.recordedReads ↔ r ∈ s.recordedReads ∧ ¬ s.HitAt base changed r.ci := by
  rw [mem_recordedReads, mem_recordedReads]
  by_cases hhit : s.HitAt base changed r.ci
  · refine iff_of_false (fun h => ?_) fun h => h.2 hhit
    obtain ⟨layer, reads, hlayer, hreads, -⟩ := h
    obtain ⟨before, hbefore, hhit⟩ := hhit
    rw [get?_cascade, hbefore, Option.map_some, if_pos hhit] at hlayer
    rw [← Option.some.inj hlayer] at hreads
    cases hreads
  · rw [get?_cascade_of_not_hit hhit, and_iff_left hhit]

theorem speculativeAbove_cascade {c : CommitIndex} (h : ¬ s.HitAt base changed c) :
    (s.cascadeInvalidate base changed).2.SpeculativeAbove base c ↔ s.SpeculativeAbove base c := by
  rw [SpeculativeAbove, SpeculativeAbove, get?_cascade_of_not_hit h]

/-- **Cascade invalidation.** In a database whose recorded reads are all current, the reads that
the speculative layers above the base keep are all current after the cascade, and none of a
changed slot, exactly if every one whose newest version was in an emptied layer finds its value
again below: in the newest layer with a version that was not emptied, or in the canonical
database if that shows none. -/
theorem cascade_current_iff [DatabaseRef DB] (s : ShadowDb DB) (h : ∀ r ∈ s.recordedReads, s.Current r)
    (base : CommitIndex) (changed : OrdSet SlotKey) :
    let result := s.cascadeInvalidate base changed
    (∀ r ∈ result.2.recordedReads, result.2.SpeculativeAbove base r.ci → r.ci ∉ result.1 →
      result.2.Current r ∧ changed.contains r.key = false) ↔ s.Undisturbed base changed := by
  intro result
  constructor
  · intro hcurrent r hr habove hkept w _ _
    have hmem : r ∈ result.2.recordedReads := mem_recordedReads_cascade.mpr ⟨hr, hkept⟩
    have hunreported : r.ci ∉ result.1 := fun hreported => hkept (mem_cascade.mp hreported)
    have hafter : result.2.Current r :=
      (hcurrent r hmem ((speculativeAbove_cascade hkept).mpr habove) hunreported).1
    exact current_cascade_iff.mp hafter
  · intro hundisturbed r hr habove _
    obtain ⟨hmem, hkept⟩ := mem_recordedReads_cascade.mp hr
    have habove := (speculativeAbove_cascade hkept).mp habove
    obtain ⟨hbase, layer, hlayer, hstatus⟩ := habove
    obtain ⟨layer', reads, hlayer', hreads, hvalue⟩ := mem_recordedReads.mp hmem
    obtain rfl : layer = layer' := Option.some.inj (hlayer.symm.trans hlayer')
    refine ⟨?_, unchanged_of_not_hit hbase hstatus (fun hhit => hkept ⟨layer, hlayer, hhit⟩) hreads hvalue⟩
    -- its newest version is in a layer that is hit, or the cascade does not matter to it
    by_cases hhit : ∃ w, s.Newest r.key r.ci r.tx w ∧ s.HitAt base changed w
    · obtain ⟨w, hnewest, hw⟩ := hhit
      exact current_cascade_iff.mpr (hundisturbed r hmem ⟨hbase, layer, hlayer, hstatus⟩ hkept w hnewest hw)
    · exact (h r hmem).cascade fun w hnewest hw => hhit ⟨w, hnewest, hw⟩

/-- Round 2 has written slots 0 and 1 of account 0, and the first transaction of round 3 has read
slot 1. -/
def readAcrossRounds : ShadowDb EmptyDb :=
  let written := (new {} 1).recordTxExecution 2 0
    (OrdMap.insert ∅ 0 ⟨{}, OrdMap.insert (OrdMap.insert ∅ 0 ⟨0, 5⟩) 1 ⟨0, 7⟩⟩)
  (((written.ensureLayer 3).setCurrentTx 3 0).storageRef 0 1).2

/-- A change of slot 2 leaves both rounds as they are. -/
theorem cascade_current_other :
    let changed := OrdSet.add ∅ (slotKey 0 2)
    (∀ r ∈ readAcrossRounds.recordedReads, readAcrossRounds.Current r) ∧
      (readAcrossRounds.cascadeInvalidate 1 changed).1 = [] ∧
      ∀ r ∈ (readAcrossRounds.cascadeInvalidate 1 changed).2.recordedReads,
        (readAcrossRounds.cascadeInvalidate 1 changed).2.SpeculativeAbove 1 r.ci →
        r.ci ∉ (readAcrossRounds.cascadeInvalidate 1 changed).1 →
        (readAcrossRounds.cascadeInvalidate 1 changed).2.Current r ∧ changed.contains r.key = false := by
  intro changed
  have hcurrent : ∀ r ∈ readAcrossRounds.recordedReads, readAcrossRounds.Current r := by
    unfold Current
    decide +kernel
  have hnone : (readAcrossRounds.cascadeInvalidate 1 changed).1 = [] := by decide +kernel
  refine ⟨hcurrent, hnone, (cascade_current_iff _ hcurrent 1 changed).mpr ?_⟩
  intro r hr habove hkept w hnewest hhit
  have hreported := mem_cascade.mpr hhit
  rw [hnone] at hreported
  exact absurd hreported List.not_mem_nil

/-- A change of slot 0 empties round 2 but not round 3, whose read of slot 1 is stale then. -/
theorem cascade_not_transitive :
    let result := readAcrossRounds.cascadeInvalidate 1 (OrdSet.add ∅ (slotKey 0 0))
    let r : RecordedRead := ⟨3, 0, slotKey 0 1, 7⟩
    (∀ r ∈ readAcrossRounds.recordedReads, readAcrossRounds.Current r) ∧ result.1 = [2] ∧
      r ∈ result.2.recordedReads ∧ result.2.SpeculativeAbove 1 r.ci ∧ ¬ result.2.Current r := by
  intro result r
  have hlayer : (result.2.layers.get? 3).map RoundLayer.status = some .speculative := by decide +kernel
  obtain ⟨layer, hlayer, hstatus⟩ := Option.map_eq_some_iff.mp hlayer
  refine ⟨?_, by decide +kernel, by decide +kernel, ⟨by decide, layer, hlayer, hstatus⟩, ?_⟩
  · unfold Current
    decide +kernel
  · unfold Current
    decide +kernel

end ShadowDb

end DualOptimistic.Shadow
