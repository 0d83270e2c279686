import DualOptimistic.Data.Machine
import DualOptimistic.Shadow.Incarnations
import DualOptimistic.Shadow.Readlast

/-! Finalising rounds.

`finalize_commit` takes the rounds in order, writes their diffs to the canonical database and
drops the layers up to them (`finalization_ordered`); a diff that lists what the round's layer
holds changes no later read (`finalize_invisible`). Nothing stops a call from making a layer of
a finalised round anew: there are none, and none is read from, exactly as long as no call does
(`finalized_gone_iff`). -/
namespace DualOptimistic.Shadow
open Data

namespace ShadowDb
variable {DB : Type}

/-! ### One call -/

/-- The only round that can be finalised. -/
def nextFinalized (s : ShadowDb DB) : CommitIndex :=
  match s.lastFinalized with
  | some prev => prev + 1
  | none => 1

/-- Phase 2 of commit, statement by statement: what was written before an error stays. -/
def finalizeInPlace [DatabaseCommit DB] (ci : CommitIndex) (diff : EvmState) :
    ExceptT CommitError (StateM (ShadowDb DB)) Unit := do
  if ci ≠ (← get).nextFinalized then throw .outOfOrder
  modify fun s => { s with canonical := DatabaseCommit.commit s.canonical diff }
  modify fun s => { s with layers := s.layers.retain fun c => decide (ci < c) }
  modify fun s => { s with lastFinalized := some ci }

section
variable [DatabaseCommit DB] (s : ShadowDb DB) (ci : CommitIndex) (diff : EvmState)

/-- The database with its next round finalised. -/
def finalized : ShadowDb DB :=
  { s with
    canonical := DatabaseCommit.commit s.canonical diff
    layers := s.layers.retain fun c => decide (ci < c)
    lastFinalized := some ci }

theorem finalizeCommit_eq : s.finalizeCommit ci diff =
    if ci = s.nextFinalized then .ok (s.finalized ci diff) else .error .outOfOrder := by
  show (if ci ≠ s.nextFinalized then _ else _) = _
  rw [ite_not]
  rfl

/-- **Phase 2 of commit** writes all or nothing. -/
theorem finalizeInPlace_run : (finalizeInPlace ci diff).run.run s =
    match s.finalizeCommit ci diff with
    | .ok s' => (.ok (), s')
    | .error e => (.error e, s) := by
  have hget : ∀ body : ShadowDb DB → ExceptT CommitError (StateM (ShadowDb DB)) Unit,
      (get >>= body).run.run s = (body s).run.run s := fun _ => rfl
  rw [finalizeCommit_eq, finalizeInPlace, hget]
  by_cases hci : ci = s.nextFinalized
  · rw [if_neg (not_not.mpr hci), if_pos hci]
    rfl
  · rw [if_pos hci, if_neg hci]
    rfl

end

/-- The layer a call makes if it is not there. -/
def Call.creates : Call → Option CommitIndex
  | .ensureLayer ci => some ci
  | .record ci _ _ => some ci
  | _ => none

/-- The index and the diff of a call that finalises a round. -/
def finalizes [DatabaseCommit DB] (s : ShadowDb DB) : Call → Option (CommitIndex × EvmState)
  | .finalize ci diff => match s.finalizeCommit ci diff with
    | .ok _ => some (ci, diff)
    | .error _ => none
  | _ => none

section
variable [DatabaseRef DB] [DatabaseCommit DB] {s : ShadowDb DB} {c : Call}

theorem finalizes_eq_some {ci : CommitIndex} {diff : EvmState} (h : s.finalizes c = some (ci, diff)) :
    ci = s.nextFinalized ∧ s.call c = s.finalized ci diff := by
  cases c with
  | finalize ci' diff' =>
    rw [finalizes, finalizeCommit_eq] at h
    rw [call, finalizeCommit_eq]
    by_cases hci : ci' = s.nextFinalized
    · rw [if_pos hci] at h ⊢
      obtain ⟨rfl, rfl⟩ := Prod.mk.inj (Option.some.inj h)
      exact ⟨hci, rfl⟩
    · rw [if_neg hci] at h
      cases h
  | setCurrentTx | ensureLayer | record | abort | commit | storageRef | basicRef | validate | cascade | stage =>
    cases h

theorem contains_recordRead (layers : OrdMap CommitIndex RoundLayer) (key : SlotKey) (ci : CommitIndex)
    (tx : TxIndex) (f : Found) (ci' : CommitIndex) :
    (recordRead layers key ci tx f).contains ci' = layers.contains ci' := by
  rw [recordRead]
  split_ifs
  · rw [OrdMap.contains_modify, OrdMap.contains_modify]
  · rw [OrdMap.contains_modify]

/-- **Any other call** leaves the canonical database as it is, and drops no layer. -/
theorem call_of_finalizes_none (h : s.finalizes c = none) :
    (s.call c).canonical = s.canonical ∧ (s.call c).lastFinalized = s.lastFinalized ∧
      ∀ ci, (s.call c).layers.contains ci = (s.layers.contains ci || decide (c.creates = some ci)) := by
  cases c with
  | finalize ci diff =>
    rw [finalizes, finalizeCommit_eq] at h
    rw [call, finalizeCommit_eq]
    by_cases hci : ci = s.nextFinalized
    · rw [if_pos hci] at h
      cases h
    · rw [if_neg hci]
      exact ⟨rfl, rfl, fun ci => (by simp [Call.creates])⟩
  | abort ci tx =>
    rw [call, abortTx]
    cases hlayer : s.layers.get? ci with
    | none => exact ⟨rfl, rfl, fun ci => (by simp [Call.creates])⟩
    | some layer =>
      refine ⟨rfl, rfl, fun ci' => ?_⟩
      by_cases hci : ci' = ci
      · simp [Call.creates, hci, OrdMap.contains, hlayer]
      · simp [Call.creates, hci]
  | commit ci tx state =>
    rw [call, commitTxExecution]
    cases hlayer : s.layers.get? ci with
    | none => exact ⟨rfl, rfl, fun ci => (by simp [Call.creates])⟩
    | some layer =>
      refine ⟨rfl, rfl, fun ci' => ?_⟩
      by_cases hci : ci' = ci
      · simp [Call.creates, hci, OrdMap.contains, hlayer]
      · simp [Call.creates, hci]
  | storageRef address index =>
    rw [call]
    rcases s.storageRef_db address index with hdb | ⟨f, hdb⟩
    · rw [hdb]
      exact ⟨rfl, rfl, fun ci => (by simp [Call.creates])⟩
    · rw [hdb]
      exact ⟨rfl, rfl, fun ci => (by simp [Call.creates, contains_recordRead])⟩
  | ensureLayer ci =>
    exact ⟨rfl, rfl, fun ci' => (by simp [call, ensureLayer, Call.creates, Bool.or_comm, eq_comm])⟩
  | record ci tx state =>
    exact ⟨rfl, rfl, fun ci' => (by simp [call, recordTxExecution, Call.creates, Bool.or_comm, eq_comm])⟩
  | setCurrentTx | basicRef | validate => exact ⟨rfl, rfl, fun ci => (by simp [call, setCurrentTx, Call.creates])⟩
  | cascade base changed => exact ⟨rfl, rfl, fun ci => (by simp [call, cascadeInvalidate, Call.creates])⟩
  | stage ci order => exact ⟨rfl, rfl, fun ci => (by simp [call, stageCommit, Call.creates])⟩

/-! ### Rounds are finalised in order -/

/-- The finalisations of a history, with their indices and diffs. -/
def finalizations (s : ShadowDb DB) : List Call → List (CommitIndex × EvmState)
  | [] => []
  | c :: rest => (s.finalizes c).toList ++ finalizations (s.call c) rest

/-- **A history finalises** consecutive rounds from the next one on, and its diffs are all that
is committed. -/
theorem finalizations_spec (s : ShadowDb DB) (history : List Call) :
    (s.finalizations history).map Prod.fst =
        List.range' s.nextFinalized (s.finalizations history).length ∧
      (s.calls history).canonical =
        ((s.finalizations history).map Prod.snd).foldl DatabaseCommit.commit s.canonical := by
  unfold calls
  induction history generalizing s with
  | nil => exact ⟨rfl, rfl⟩
  | cons c rest ih =>
    obtain ⟨hindices, hcanonical⟩ := ih (s.call c)
    rw [List.foldl_cons, finalizations]
    cases hc : s.finalizes c with
    | none =>
      obtain ⟨hsame, hlast, -⟩ := call_of_finalizes_none hc
      have hnext : (s.call c).nextFinalized = s.nextFinalized := by rw [nextFinalized, hlast, nextFinalized]
      rw [hnext] at hindices
      rw [hsame] at hcanonical
      exact ⟨hindices, hcanonical⟩
    | some e =>
      obtain ⟨hnext, hcall⟩ := finalizes_eq_some hc
      have hthen : (s.call c).nextFinalized = s.nextFinalized + 1 := by
        rw [hcall, ← hnext]
        rfl
      rw [hthen] at hindices
      rw [hcall] at hcanonical
      constructor
      · simp only [Option.toList_some, List.singleton_append, List.map_cons, List.length_cons, List.range'_succ]
        rw [hcall] at hindices ⊢
        rw [hindices, hnext]
      · rw [hcall]
        exact hcanonical

end

/-- **Ordered, atomic finalisation.** In every history, the rounds finalised are 1, 2, and so
on; the canonical database is the first one with their diffs committed in that order; and a
finalisation that is refused changes nothing, while one that is not drops the layers up to its
round and keeps the others as they are. -/
theorem finalization_ordered [DatabaseRef DB] [DatabaseCommit DB] (canonical : DB) (coinbase : Address)
    (history : List Call) :
    let s := (new canonical coinbase).calls history
    let done := (new canonical coinbase).finalizations history
    done.map Prod.fst = List.range' 1 done.length ∧
      s.canonical = (done.map Prod.snd).foldl DatabaseCommit.commit canonical ∧
      ∀ ci diff, let result := (finalizeInPlace ci diff).run.run s
        s.call (.finalize ci diff) = result.2 ∧
          (s.finalizes (.finalize ci diff) = none → result.1 = .error .outOfOrder ∧ result.2 = s) ∧
          (s.finalizes (.finalize ci diff) ≠ none → result.1 = .ok () ∧ result.2.lastFinalized = some ci ∧
            (∀ c, c ≤ ci → result.2.layers.get? c = none) ∧
            ∀ c, ci < c → result.2.layers.get? c = s.layers.get? c) := by
  intro s done
  obtain ⟨hindices, hcanonical⟩ := (new canonical coinbase).finalizations_spec history
  refine ⟨hindices, hcanonical, fun ci diff => ?_⟩
  intro result
  have hresult : result = _ := finalizeInPlace_run s ci diff
  rw [hresult, finalizes, call, finalizeCommit_eq]
  by_cases hci : ci = s.nextFinalized
  · rw [if_pos hci]
    refine ⟨rfl, fun h => (by cases h), fun _ => ⟨rfl, rfl, fun c hc => ?_, fun c hc => ?_⟩⟩
    · show (s.layers.retain _).get? c = none
      rw [OrdMap.get?_retain, if_neg (by simpa using hc)]
    · show (s.layers.retain _).get? c = _
      rw [OrdMap.get?_retain, if_pos (by simpa using hc)]
  · rw [if_neg hci]
    exact ⟨rfl, fun _ => ⟨rfl, rfl⟩, fun h => absurd rfl h⟩

/-! ### Finalised rounds stay gone -/

section
variable {s : ShadowDb DB}

theorem contains_of_accountSource {address : Address} {ci : CommitIndex} {tx : TxIndex} {source : CommitIndex × TxIndex}
    (h : s.accountSource address ci tx = some source) : s.layers.contains source.1 = true := by
  obtain ⟨hlayer, -⟩ := OrdMap.findLast_eq_some.mp h
  obtain ⟨layer, hlayer, -⟩ := Option.bind_eq_some_iff.mp hlayer
  exact OrdMap.contains_iff.mpr ⟨layer, hlayer⟩

theorem contains_of_storageSource [DatabaseRef DB] {address : Address} {index : StorageKey} {ci : CommitIndex}
    {tx : TxIndex} {source : CommitIndex × TxIndex}
    (h : s.storageSource (slotKey address index) ci tx = some source) : s.layers.contains source.1 = true := by
  obtain ⟨value, hversion, -⟩ := (s.storageSource_spec address index ci tx).2 source.1 source.2 h
  exact contains_of_version hversion

end

/-- Every layer is of a round that is not finalised, and so is every position a slot or an
account is read from. -/
structure AboveFinalized (s : ShadowDb DB) : Prop where
  layers : ∀ prev, s.lastFinalized = some prev → ∀ ci, s.layers.contains ci = true → prev < ci
  slots : ∀ prev, s.lastFinalized = some prev → ∀ address index ci tx source,
    s.storageSource (slotKey address index) ci tx = some source → prev < source.1
  accounts : ∀ prev, s.lastFinalized = some prev → ∀ address ci tx source,
    s.accountSource address ci tx = some source → prev < source.1

/-- The call makes no layer of a finalised round. -/
def Fresh (s : ShadowDb DB) (c : Call) : Prop :=
  ∀ ci prev, c.creates = some ci → s.lastFinalized = some prev → prev < ci

theorem aboveFinalized_of_layers [DatabaseRef DB] {s : ShadowDb DB}
    (h : ∀ prev, s.lastFinalized = some prev → ∀ ci, s.layers.contains ci = true → prev < ci) :
    s.AboveFinalized :=
  ⟨h, fun prev hprev _ _ _ _ _ hsource => h prev hprev _ (contains_of_storageSource hsource),
    fun prev hprev _ _ _ _ hsource => h prev hprev _ (contains_of_accountSource hsource)⟩

section
variable [DatabaseRef DB] [DatabaseCommit DB] {s : ShadowDb DB}

/-- A call that makes no such layer keeps them away. -/
theorem AboveFinalized.call (h : s.AboveFinalized) {c : Call} (hfresh : s.Fresh c) : (s.call c).AboveFinalized := by
  refine aboveFinalized_of_layers fun prev hprev ci hci => ?_
  cases hc : s.finalizes c with
  | none =>
    obtain ⟨-, hlast, hcontains⟩ := call_of_finalizes_none hc
    rw [hlast] at hprev
    rw [hcontains, Bool.or_eq_true, decide_eq_true_eq] at hci
    rcases hci with hci | hcreates
    · exact h.layers prev hprev ci hci
    · exact hfresh ci prev hcreates hprev
  | some e =>
    obtain ⟨-, hcall⟩ := finalizes_eq_some hc
    rw [hcall] at hprev hci
    obtain rfl : e.1 = prev := Option.some.inj hprev
    obtain ⟨layer, hlayer⟩ := OrdMap.contains_iff.mp hci
    have hretained : (s.layers.retain fun c => decide (e.1 < c)).get? ci = some layer := hlayer
    rw [OrdMap.get?_retain] at hretained
    split_ifs at hretained with hlt
    exact of_decide_eq_true hlt

/-- One that does brings the round back. -/
theorem fresh_of_aboveFinalized {c : Call} (h : (s.call c).AboveFinalized) : s.Fresh c := by
  intro ci prev hcreates hprev
  have hnone : s.finalizes c = none := by
    cases c with
    | finalize => cases hcreates
    | setCurrentTx | ensureLayer | record | abort | commit | storageRef | basicRef | validate | cascade | stage => rfl
  obtain ⟨-, hlast, hcontains⟩ := call_of_finalizes_none hnone
  refine h.layers prev (hlast.trans hprev) ci ?_
  rw [hcontains, hcreates]
  simp

end

/-- **A finalised round stays gone.** In a history, no layer of a finalised round is ever there
and no read is ever answered from one, exactly if no call makes a layer of a round that is
finalised when it is made. -/
theorem finalized_gone_iff [DatabaseRef DB] [DatabaseCommit DB] (canonical : DB) (coinbase : Address)
    (history : List Call) :
    (∀ done, done <+: history → ((new canonical coinbase).calls done).AboveFinalized) ↔
      Along call Fresh (new canonical coinbase) history := by
  have hnew : (new canonical coinbase).AboveFinalized :=
    aboveFinalized_of_layers fun prev hprev => by cases hprev
  refine ⟨fun h => ?_, fun h => h.keeps (fun s c hs hc => hs.call hc) hnew⟩
  clear hnew
  generalize new canonical coinbase = s at h
  induction history generalizing s with
  | nil => trivial
  | cons c rest ih =>
    refine ⟨fresh_of_aboveFinalized (h [c] ⟨rest, rfl⟩), ih _ fun done hdone => ?_⟩
    exact h (c :: done) (List.cons_prefix_cons.mpr ⟨rfl, hdone⟩)

/-- A result of round 1 that is recorded after the round was finalised brings its layer back,
and is read in place of the canonical value. -/
theorem finalized_comes_back :
    let s := (new nineInSlot 1).calls [.finalize 1 ∅, .record 1 0 (changeSlot 9 5)]
    s.lastFinalized = some 1 ∧ s.layers.contains 1 = true ∧ s.storageSource (slotKey 0 0) 2 0 = some (1, 0) ∧
      ((s.setCurrentTx 2 0).storageRef 0 0).1 = .ok 5 ∧ ¬ s.AboveFinalized := by
  intro s
  have hcontains : s.layers.contains 1 = true := by decide +kernel
  refine ⟨by decide +kernel, hcontains, by decide +kernel, by decide +kernel, fun h => ?_⟩
  exact absurd (h.layers 1 (by decide +kernel) 1 hcontains) (Nat.lt_irrefl 1)

/-! ### Later rounds do not notice -/

/-- The value a diff lists for a slot. -/
def listed (diff : EvmState) (address : Address) (index : StorageKey) : Option StorageValue :=
  ((diff.get? address).bind (·.storage.get? index)).map EvmStorageSlot.presentValue

/-- A canonical database whose commit overwrites the slots a diff lists, and no others. -/
class LawfulCommit (DB : Type) [DatabaseRef DB] [DatabaseCommit DB] : Prop where
  storageRef_commit (db : DB) (diff : EvmState) (address : Address) (index : StorageKey) :
    DatabaseRef.storageRef (DatabaseCommit.commit db diff) address index =
      ((listed diff address index).map Except.ok).getD (DatabaseRef.storageRef db address index)

/-- Version `i`, with `value`, is the highest data of the slot in layer `c`. -/
def TopData (s : ShadowDb DB) (c : CommitIndex) (key : SlotKey) (i : TxIndex) (value : StorageValue) : Prop :=
  s.version c i key = some (.data value) ∧ ∀ j value', i < j → s.version c j key ≠ some (.data value')

/-- The diff lists, for exactly the slots layer `c` holds data of, the highest of that data. -/
def Summarizes (diff : EvmState) (s : ShadowDb DB) (c : CommitIndex) : Prop :=
  ∀ address index value, listed diff address index = some value ↔
    ∃ i, s.TopData c (slotKey address index) i value

section
variable {s : ShadowDb DB} {key : SlotKey} {ci c : CommitIndex} {tx : TxIndex}

/-- Of a layer that is not its own a reader sees all. -/
theorem lastData_other (h : c ≠ ci) {i : TxIndex} {value : StorageValue} :
    s.LastData key ci tx c i value ↔ s.TopData c key i value := by
  have hvis : ∀ i, Visible (c == ci) tx i := fun i hown => absurd (beq_iff_eq.mp hown) h
  unfold LastData TopData
  simp [hvis]

/-- Without pending versions, a touched layer has data. -/
theorem Touched.hasData (h : s.Touched key ci tx c) (hpending : ∀ i, s.version c i key ≠ some .pending) :
    s.HasData key ci tx c := by
  obtain ⟨i, v, hvis, hv, habs⟩ := h
  cases v with
  | data value => exact ⟨i, value, hvis, hv⟩
  | pending => exact absurd hv (hpending i)
  | absent => cases habs

/-- Without pending versions, the highest data of the newest touched layer is found. -/
theorem readlastStorage_last (h : s.Newest key ci tx c) (hpending : ∀ i, s.version c i key ≠ some .pending) :
    ∃ i value, s.LastData key ci tx c i value ∧ (s.readlastStorage key ci tx).1 = some value := by
  obtain ⟨i, value, hlast⟩ := (h.1.hasData hpending).exists_last
  rcases (readlastStorage_newest h).2 i value hlast with ⟨⟨-, hover⟩, -⟩ | ⟨-, hlookup⟩
  · obtain ⟨j, -, hj, -⟩ := hover
    exact absurd hj (hpending j)
  · exact ⟨i, value, hlast, hlookup⟩

variable [DatabaseCommit DB]

theorem versionsAt_finalized (s : ShadowDb DB) (ci : CommitIndex) (diff : EvmState) (c : CommitIndex) (key : SlotKey) :
    (s.finalized ci diff).versionsAt c key = if ci < c then s.versionsAt c key else ∅ := by
  unfold versionsAt finalized
  dsimp only
  rw [OrdMap.get?_retain]
  by_cases hc : ci < c
  · simp [hc]
  · simp [hc]

theorem touched_finalized {ci' : CommitIndex} {diff : EvmState} :
    (s.finalized ci' diff).Touched key ci tx c ↔ ci' < c ∧ s.Touched key ci tx c := by
  unfold Touched version
  rw [versionsAt_finalized]
  by_cases hc : ci' < c
  · simp [hc]
  · simp [hc]

/-- What is found above the finalised round is found after it. -/
theorem readlastStorage_finalized {ci' : CommitIndex} {diff : EvmState} (h : s.Newest key ci tx c) (hc : ci' < c) :
    ((s.finalized ci' diff).readlastStorage key ci tx).1 = (s.readlastStorage key ci tx).1 := by
  have hnewest : (s.finalized ci' diff).Newest key ci tx c :=
    ⟨touched_finalized.mpr ⟨hc, h.1⟩, fun c' hc' ht => h.2 c' hc' (touched_finalized.mp ht).2⟩
  rw [readlastStorage_eq, readlastStorage_eq, searchStorage_newest hnewest, searchStorage_newest h,
    versionsAt_finalized, if_pos hc]

end

/-- **Merging a round is invisible to later rounds.** Where no version is pending, no layer is
below the next round to finalise, and the diff lists what the layer of that round holds, every
slot reads the same before and after, at every position of a later round. -/
theorem finalize_invisible [DatabaseRef DB] [DatabaseCommit DB] [LawfulCommit DB] (s : ShadowDb DB)
    (diff : EvmState) (hpending : ∀ c i key, s.version c i key ≠ some .pending)
    (hbelow : ∀ c, s.layers.contains c = true → s.nextFinalized ≤ c)
    (hdiff : Summarizes diff s s.nextFinalized) :
    ∃ s', s.finalizeCommit s.nextFinalized diff = .ok s' ∧
      ∀ ci tx address index, s.nextFinalized < ci →
        ((s'.setCurrentTx ci tx).storageRef address index).1 =
          ((s.setCurrentTx ci tx).storageRef address index).1 := by
  refine ⟨s.finalized s.nextFinalized diff, by rw [finalizeCommit_eq, if_pos rfl], ?_⟩
  intro ci tx address index hci
  have hown : s.nextFinalized ≠ ci := Nat.ne_of_lt hci
  rw [storageRef_lookup, storageRef_lookup]
  rcases s.untouched_or_newest (slotKey address index) ci tx with huntouched | ⟨c, hnewest⟩
  · -- the round holds no data of the slot, so the diff does not list it
    have hnone : listed diff address index = none := by
      by_contra hsome
      obtain ⟨value, hvalue⟩ := Option.ne_none_iff_exists'.mp hsome
      obtain ⟨i, htop⟩ := (hdiff address index value).mp hvalue
      exact huntouched _ ((lastData_other hown).mpr htop).hasData.touched
    rw [readlastStorage_untouched huntouched,
      readlastStorage_untouched fun c ht => huntouched c (touched_finalized.mp ht).2]
    show DatabaseRef.storageRef (DatabaseCommit.commit s.canonical diff) address index = _
    rw [LawfulCommit.storageRef_commit, hnone]
  · obtain ⟨i, value, hlast, hlookup⟩ := readlastStorage_last hnewest fun i => hpending c i _
    rcases Nat.lt_or_eq_of_le (hbelow c hnewest.1.contains) with hlt | rfl
    · rw [readlastStorage_finalized hnewest hlt, hlookup]
      rfl
    · -- what was found in the layer is now in the canonical database
      rw [hlookup, readlastStorage_untouched fun c ht =>
        hnewest.2 c (touched_finalized.mp ht).1 (touched_finalized.mp ht).2]
      show DatabaseRef.storageRef (DatabaseCommit.commit s.canonical diff) address index = _
      rw [LawfulCommit.storageRef_commit, (hdiff address index value).mpr ⟨i, (lastData_other hown).mp hlast⟩]

theorem slotKey_inj {address address' : Address} {index index' : StorageKey} :
    slotKey address index = slotKey address' index' ↔ address = address' ∧ index = index' := by
  unfold slotKey
  rw [toLex_inj, Prod.mk.injEq]

theorem get?_commitSlots (address : Address) (storage : OrdMap StorageKey EvmStorageSlot)
    (slots : OrdMap SlotKey StorageValue) (address' : Address) (index : StorageKey) :
    (storage.entries.foldl (fun slots slot => slots.insert (slotKey address slot.1) slot.2.presentValue) slots).get?
        (slotKey address' index) =
      if address = address' then
        ((storage.get? index).map EvmStorageSlot.presentValue).or (slots.get? (slotKey address' index))
      else slots.get? (slotKey address' index) := by
  rw [@OrdMap.foldl_entries _ _ _ _ _ _ (fun slots : OrdMap SlotKey StorageValue => slots.get? (slotKey address' index))
    index (fun slot old => if address = address' then some slot.presentValue else old)]
  · cases storage.get? index with
    | none => simp
    | some slot => simp
  · intro slots slot hne
    rw [OrdMap.get?_insert, if_neg fun h => hne (slotKey_inj.mp h).2.symm]
  · intro slots slot
    rw [OrdMap.get?_insert]
    simp only [slotKey_inj, and_true, eq_comm]

instance : LawfulCommit InMemoryDb where
  storageRef_commit db diff address index := by
    have hget : (DatabaseCommit.commit db diff).storage.get? (slotKey address index) =
        (listed diff address index).or (db.storage.get? (slotKey address index)) := by
      show (diff.entries.foldl _ db.storage).get? (slotKey address index) = _
      rw [@OrdMap.foldl_entries _ _ _ _ _ _
        (fun slots : OrdMap SlotKey StorageValue => slots.get? (slotKey address index)) address
        (fun account old => ((account.storage.get? index).map EvmStorageSlot.presentValue).or old)]
      · unfold listed
        cases diff.get? address with
        | none => rfl
        | some account => rfl
      · intro slots account hne
        rw [get?_commitSlots, if_neg hne]
      · intro slots account
        rw [get?_commitSlots, if_pos rfl]
    show Except.ok (((DatabaseCommit.commit db diff).storage.get? (slotKey address index)).getD 0) = _
    rw [hget]
    cases listed diff address index with
    | none => rfl
    | some value => rfl

theorem listed_changeSlot (original present : StorageValue) (address : Address) (index : StorageKey) :
    listed (changeSlot original present) address index =
      if slotKey address index = slotKey 0 0 then some present else none := by
  unfold listed changeSlot
  rw [OrdMap.get?_insert]
  simp only [slotKey_inj]
  by_cases haddress : address = 0
  · rw [if_pos haddress, Option.bind_some, OrdMap.get?_insert]
    by_cases hindex : index = 0
    · simp [haddress, hindex]
    · simp [hindex]
  · simp [haddress]

/-- Round 1 changed the slot to five. -/
def fiveInRoundOne : ShadowDb InMemoryDb := (new nineInSlot 1).recordTxExecution 1 0 (changeSlot 9 5)

theorem version_fiveInRoundOne (c : CommitIndex) (i : TxIndex) (key : SlotKey) :
    fiveInRoundOne.version c i key = if c = 1 ∧ i = 0 ∧ key = slotKey 0 0 then some (.data 5) else none := by
  have hwrite : slotWrite (changeSlot 9 5) key = if key = slotKey 0 0 then some 5 else none := by
    by_cases hkey : key = slotKey 0 0
    · subst hkey
      decide +kernel
    · have hlisted : listed (changeSlot 9 5) (ofLex key).1 (ofLex key).2 = none :=
        (listed_changeSlot 9 5 (ofLex key).1 (ofLex key).2).trans (if_neg hkey)
      rw [if_neg hkey, slotWrite, Option.map_eq_none_iff.mp hlisted]
      rfl
  rw [version_eq, fiveInRoundOne, layerAt_record]
  by_cases hc : c = 1
  · rw [if_pos hc, RoundLayer.versionsOf_recordState, RoundLayer.writeOver, hwrite]
    by_cases hkey : key = slotKey 0 0
    · simp only [hc, hkey, if_true, Option.map_some, Option.getD_some, OrdMap.get?_insert, true_and, and_true]
      rfl
    · simp only [hkey, and_false, if_false]
      rfl
  · rw [if_neg hc, if_neg fun h => hc h.1]
    rfl

/-- Round 1 finalised, the first transaction of round 2 reads five as before. -/
theorem finalize_invisible_five :
    (∀ c i key, fiveInRoundOne.version c i key ≠ some .pending) ∧
      (∀ c, fiveInRoundOne.layers.contains c = true → fiveInRoundOne.nextFinalized ≤ c) ∧
      Summarizes (changeSlot 9 5) fiveInRoundOne fiveInRoundOne.nextFinalized ∧
      ((fiveInRoundOne.setCurrentTx 2 0).storageRef 0 0).1 = .ok 5 ∧
      ∃ s', fiveInRoundOne.finalizeCommit 1 (changeSlot 9 5) = .ok s' ∧
        ((s'.setCurrentTx 2 0).storageRef 0 0).1 = .ok 5 := by
  have hpending : ∀ c i key, fiveInRoundOne.version c i key ≠ some .pending := by
    intro c i key hv
    rw [version_fiveInRoundOne] at hv
    split_ifs at hv
    cases hv
  have hbelow : ∀ c, fiveInRoundOne.layers.contains c = true → fiveInRoundOne.nextFinalized ≤ c := by
    intro c hc
    have hkeys : ∀ c ∈ fiveInRoundOne.layers.keys, fiveInRoundOne.nextFinalized ≤ c := by decide +kernel
    exact hkeys c (OrdMap.contains_iff_mem_keys.mp hc)
  have hdiff : Summarizes (changeSlot 9 5) fiveInRoundOne fiveInRoundOne.nextFinalized := by
    intro address index value
    have hnext : fiveInRoundOne.nextFinalized = 1 := rfl
    unfold TopData
    rw [listed_changeSlot, hnext]
    simp only [version_fiveInRoundOne]
    by_cases hkey : slotKey address index = slotKey 0 0
    · simp only [hkey, if_true, and_true, true_and]
      constructor
      · intro h
        refine ⟨0, by rw [if_pos rfl, Option.some.inj h], fun j value' hj => ?_⟩
        rw [if_neg (Nat.ne_of_gt hj)]
        exact fun h => (by cases h)
      · intro h
        obtain ⟨i, hi, -⟩ := h
        split_ifs at hi
        exact congrArg some (VersionedValue.data.inj (Option.some.inj hi))
    · simp [hkey]
  have hfive : ((fiveInRoundOne.setCurrentTx 2 0).storageRef 0 0).1 = .ok 5 := by decide +kernel
  obtain ⟨s', hok, hsame⟩ := finalize_invisible fiveInRoundOne (changeSlot 9 5) hpending hbelow hdiff
  exact ⟨hpending, hbelow, hdiff, hfive, s', hok, (hsame 2 0 0 0 (by decide +kernel)).trans hfive⟩

end ShadowDb

end DualOptimistic.Shadow
