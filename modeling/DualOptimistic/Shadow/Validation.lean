import DualOptimistic.Shadow.Recording

/-! What an empty validation of a round says about its reads.

The transactions of one round read slots at their positions and record what they
wrote, in any order. A read answered by a version of the round is remembered in
`txReads` and validated; a read answered by the canonical database is not. In the
runs in which no later write changes what such an unremembered read saw, an empty
`validate_round` means that every last read still stands (`validated_reads_stand`). -/
namespace DualOptimistic.Shadow
open Data

/-! ### What recording an execution writes -/

/-- `m'` is `m`, or `m` with one of the values `W` written by `tx`. -/
def Updated (tx : TxIndex) (W : StorageValue → Prop) (m m' : OrdMap TxIndex VersionedValue) : Prop :=
  m' = m ∨ ∃ value, W value ∧ m' = m.insert tx (.data value)

namespace RoundLayer

/-- Recording an execution writes to a slot what it changed it to, or nothing. -/
theorem recordState_updated (coinbase : Address) (tx : TxIndex) (layer : RoundLayer) (state : EvmState)
    (key : SlotKey) :
    Updated tx (Writes state key) (layer.versionsOf key)
      ((layer.recordState coinbase tx state).versionsOf key) := by
  rw [versionsOf_recordState]
  cases hwrite : slotWrite state key with
  | none => exact .inl rfl
  | some value => exact .inr ⟨value, writes_iff.mpr hwrite, rfl⟩

end RoundLayer

namespace ShadowDb
variable {DB : Type}

/-! ### One round of confirmed values -/

/-- `layer` is the only layer, for round `ci`, and every version in it is data. -/
structure OneRound (ci : CommitIndex) (s : ShadowDb DB) (layer : RoundLayer) : Prop where
  only : ∀ c, s.layers.get? c = if c = ci then some layer else none
  data : ∀ key i v, (layer.versionsOf key).get? i = some v → ∃ x, v = .data x

/-- Where every version is data, a layer answers with the last one below the reader. -/
theorem readLayer_data {ci : CommitIndex} {tx : TxIndex} {sv : SlotVersions}
    (hdata : ∀ i v, sv.versions.get? i = some v → ∃ x, v = .data x) :
    readlastInLayer sv tx = (readLayer ci true tx sv).map Found.value ∧
      ∀ f, readLayer ci true tx sv = some f → f.writerCi = ci ∧ f.wasPending = false ∧
        ∃ v, f.writerTx < tx ∧ sv.versions.get? f.writerTx = some v := by
  cases hw : maxWriter sv true tx with
  | none =>
    have hread : readLayer ci true tx sv = none := readLayer_eq_none.mpr hw
    rw [hread]
    refine ⟨?_, fun f hf => by cases hf⟩
    rw [readlastInLayer_eq, Option.map_none, Option.map_eq_none_iff, OrdMap.findLast_eq_none]
    intro i
    cases hv : sv.versions.get? i with
    | none => rfl
    | some v =>
      rw [Option.bind_some]
      split_ifs with hi
      · obtain ⟨x, rfl⟩ := hdata i v hv
        cases maxWriter_eq_none.mp hw i _ (fun _ => hi) hv
      · rfl
  | some w =>
    obtain ⟨hvis, v, hv, -⟩ := maxWriter_visible hw
    obtain ⟨x, rfl⟩ := hdata w v hv
    have hread : readLayer ci true tx sv = some ⟨ci, w, x, false⟩ := by
      simp only [readLayer, hw, hv]
    rw [hread]
    refine ⟨?_, fun f hf => ?_⟩
    · have hfind : sv.versions.findLast (fun i v => if i < tx then v.data? else none) = some (w, x) := by
        refine OrdMap.findLast_eq_some.mpr ⟨?_, fun i hi => ?_⟩
        · rw [hv, Option.bind_some, if_pos (hvis rfl)]
          rfl
        · cases hvi : sv.versions.get? i with
          | none => rfl
          | some u =>
            rw [Option.bind_some]
            split_ifs with hlt
            · obtain ⟨y, rfl⟩ := hdata i u hvi
              cases maxWriter_above hw hi (fun _ => hlt) hvi
            · rfl
      rw [readlastInLayer_eq, hfind]
      rfl
    · rw [← Option.some.inj hf]
      exact ⟨rfl, rfl, _, hvis rfl, hv⟩

/-- The last confirmed value below `tx`. -/
def lastBelow (m : OrdMap TxIndex VersionedValue) (tx : TxIndex) : Option StorageValue :=
  readlastInLayer { versions := m } tx

/-- Where only round `ci` has a layer, a search of it is a search of that layer. -/
theorem search_alone {ci : CommitIndex} {s : ShadowDb DB} (h : ∀ c, c ≠ ci → s.layers.get? c = none)
    (key : SlotKey) (tx : TxIndex) :
    searchStorage s.layers key ci tx = readLayer ci true tx { versions := s.versionsAt ci key } := by
  rw [searchStorage, searchLayers_eq, ← bind_readLayer s ci key true tx]
  have hown : (ci == ci) = true := beq_self_eq_true ci
  cases hans : (s.layers.get? ci).bind fun layer =>
      (layer.slotVersions.get? key).bind (readLayer ci true tx) with
  | none =>
    rw [Option.map_eq_none_iff, OrdMap.findLast_eq_none]
    intro c
    by_cases hc : c = ci
    · rw [hc, hown]
      exact hans
    · rw [h c hc]
      rfl
  | some f =>
    have hfind : s.layers.findLast (fun c layer =>
        (layer.slotVersions.get? key).bind (readLayer c (c == ci) tx)) = some (ci, f) := by
      refine OrdMap.findLast_eq_some.mpr ⟨?_, fun c hc => ?_⟩
      · rw [hown]
        exact hans
      · rw [h c hc.ne']
        rfl
    rw [hfind]
    rfl

theorem OneRound.search {ci : CommitIndex} {s : ShadowDb DB} {layer : RoundLayer}
    (h : OneRound ci s layer) (key : SlotKey) (tx : TxIndex) :
    searchStorage s.layers key ci tx =
      readLayer ci true tx { versions := layer.versionsOf key } := by
  have hver : s.versionsAt ci key = layer.versionsOf key := by
    rw [versionsAt, h.only ci, if_pos rfl]
    rfl
  rw [search_alone (fun c hc => (h.only c).trans (if_neg hc)), hver]

/-- In such a round a read returns the last value below the reader, or the canonical one. -/
theorem OneRound.storageRef [DatabaseRef DB] {ci : CommitIndex} {s : ShadowDb DB} {layer : RoundLayer}
    (h : OneRound ci s layer) (tx : TxIndex) (address : Address) (index : StorageKey) :
    ((s.setCurrentTx ci tx).storageRef address index).1 =
      ((lastBelow (layer.versionsOf (slotKey address index)) tx).map Except.ok).getD
        (DatabaseRef.storageRef s.canonical address index) := by
  obtain ⟨hlast, hfound⟩ := @readLayer_data ci tx
    { versions := layer.versionsOf (slotKey address index) } (h.data _)
  rw [storageRef_eq, h.search, lastBelow, hlast]
  cases hread : readLayer ci true tx { versions := layer.versionsOf (slotKey address index) } with
  | none => rfl
  | some f =>
    obtain ⟨-, hpend, -⟩ := hfound f hread
    simp only [answer, Found.answers, hpend]
    rfl

theorem lastBelow_eq (m : OrdMap TxIndex VersionedValue) (k : TxIndex) :
    lastBelow m k = (m.findLast fun i v => if i < k then v.data? else none).map Prod.snd :=
  readlastInLayer_eq { versions := m } k

/-- A write below `k` with no version between is the last value below `k`. -/
theorem lastBelow_insert_newest {m : OrdMap TxIndex VersionedValue} {tx k : TxIndex} (hk : tx < k)
    (hbetween : ∀ i, tx < i → i < k → m.get? i = none) (value : StorageValue) :
    lastBelow (m.insert tx (.data value)) k = some value := by
  have hfind : (m.insert tx (.data value)).findLast (fun i v => if i < k then v.data? else none) =
      some (tx, value) := by
    refine OrdMap.findLast_eq_some.mpr ⟨?_, fun i hi => ?_⟩
    · rw [OrdMap.get?_insert, if_pos rfl, Option.bind_some, if_pos hk]
      rfl
    · rw [OrdMap.get?_insert, if_neg hi.ne']
      by_cases hik : i < k
      · rw [hbetween i hi hik]
        rfl
      · cases m.get? i with
        | none => rfl
        | some v => rw [Option.bind_some, if_neg hik]
  rw [lastBelow_eq, hfind]
  rfl

/-- A value between hides a write: it is at or below the one found, and above the write. -/
theorem lastBelow_insert_hidden {m : OrdMap TxIndex VersionedValue} {tx i k : TxIndex} {x : StorageValue}
    (hi : tx < i) (hik : i < k) (hv : m.get? i = some (.data x)) (value : StorageValue) :
    lastBelow (m.insert tx (.data value)) k = lastBelow m k := by
  cases hfind : m.findLast (fun i v => if i < k then v.data? else none) with
  | none =>
    have hnone := OrdMap.findLast_eq_none.mp hfind i
    rw [hv, Option.bind_some, if_pos hik] at hnone
    cases hnone
  | some e =>
    obtain ⟨w, y⟩ := e
    have hiw : i ≤ w := by
      by_contra hlt
      have hnone := (OrdMap.findLast_eq_some.mp hfind).2 i (not_le.mp hlt)
      rw [hv, Option.bind_some, if_pos hik] at hnone
      cases hnone
    have hfind' := OrdMap.findLast_of_above hfind fun j hj =>
      show (m.insert tx (.data value)).get? j = m.get? j by
        rw [OrdMap.get?_insert, if_neg (hi.trans_le (hiw.trans hj)).ne']
    rw [lastBelow_eq, lastBelow_eq, hfind, hfind']

/-- A write from `k` on is not below `k`. -/
theorem lastBelow_insert_above {m : OrdMap TxIndex VersionedValue} {tx k : TxIndex} (hk : ¬ tx < k)
    (v : VersionedValue) : lastBelow (m.insert tx v) k = lastBelow m k := by
  rw [lastBelow_eq, lastBelow_eq]
  congr 1
  apply OrdMap.findLast_congr
  intro i
  by_cases hi : i = tx
  · have hik : ¬ i < k := hi ▸ hk
    simp only [hik, if_false]
    rw [OrdMap.get?_insert, if_pos hi]
    cases m.get? i <;> rfl
  · rw [OrdMap.get?_insert, if_neg hi]

/-- A write changes the last value below `k` only if it is below `k` with no version
between; then it is that value. -/
theorem lastBelow_updated {tx : TxIndex} {W : StorageValue → Prop}
    {m m' : OrdMap TxIndex VersionedValue} (h : Updated tx W m m')
    (hdata : ∀ i v, m.get? i = some v → ∃ x, v = .data x) (k : TxIndex) :
    lastBelow m' k = lastBelow m k ∨
      tx < k ∧ (∀ i, tx < i → i < k → m.get? i = none) ∧
        ∃ value, W value ∧ lastBelow m' k = some value := by
  rcases h with rfl | ⟨value, hW, rfl⟩
  · exact .inl rfl
  by_cases hk : tx < k
  · by_cases hbetween : ∀ i, tx < i → i < k → m.get? i = none
    · exact .inr ⟨hk, hbetween, value, hW, lastBelow_insert_newest hk hbetween value⟩
    · push Not at hbetween
      obtain ⟨i, hi, hik, hne⟩ := hbetween
      obtain ⟨v, hv⟩ := Option.ne_none_iff_exists'.mp hne
      obtain ⟨x, rfl⟩ := hdata i v hv
      exact .inl (lastBelow_insert_hidden hi hik hv value)
  · exact .inl (lastBelow_insert_above hk _)

/-- The layer after a read answered by `f`: one more reader and one more read. -/
def afterRead (layer : RoundLayer) (key : SlotKey) (tx : TxIndex) (f : Found) : RoundLayer :=
  { layer with
    slotVersions := layer.slotVersions.upsert key {} fun sv =>
      { sv with readers := sv.readers.upsert f.writerTx [] (· ++ [tx]) }
    txReads := layer.txReads.upsert tx ∅ (·.insert key f.value) }

/-! ### Histories of one round -/

/-- A transaction reads a slot, or records its execution. -/
inductive RoundOp where
  | read (tx : TxIndex) (address : Address) (index : StorageKey)
  | record (tx : TxIndex) (state : EvmState)

/-- The database, and what the last read of each slot by each transaction returned. -/
structure History (DB : Type) where
  db : ShadowDb DB
  lastRead : TxIndex → SlotKey → Option (Except String StorageValue)

/-- A round with its layer and nothing in it. -/
def History.start (canonical : DB) (coinbase : Address) (ci : CommitIndex) : History DB where
  db := (new canonical coinbase).ensureLayer ci
  lastRead := fun _ _ => none

/-- The value a transaction's layer remembers it read. -/
def remembered (s : ShadowDb DB) (ci : CommitIndex) (k : TxIndex) (key : SlotKey) : Option StorageValue :=
  ((s.layers.get? ci).bind (·.txReads.get? k)).bind (·.get? key)

variable [DatabaseRef DB]

def History.step (ci : CommitIndex) (h : History DB) : RoundOp → History DB
  | .read tx address index =>
    let result := (h.db.setCurrentTx ci tx).storageRef address index
    { db := result.2
      lastRead := fun k key =>
        if k = tx ∧ key = slotKey address index then some result.1 else h.lastRead k key }
  | .record tx state => { h with db := h.db.recordTxExecution ci tx state }

def History.run (ci : CommitIndex) (h : History DB) : List RoundOp → History DB
  | [] => h
  | op :: rest => (h.step ci op).run ci rest

/-- The canonical value of a slot. -/
def canonicalValue (s : ShadowDb DB) (key : SlotKey) : Except String StorageValue :=
  DatabaseRef.storageRef s.canonical (ofLex key).1 (ofLex key).2

/-- A record is careful if it writes nothing but the canonical value to a slot that a
later transaction read and no layer remembers, unless one between has written it. -/
def History.Careful (ci : CommitIndex) (h : History DB) : RoundOp → Prop
  | .read .. => True
  | .record tx state => ∀ key value, Writes state key value → ∀ k, tx < k →
      h.lastRead k key ≠ none → h.db.remembered ci k key = none →
      (∃ i, tx < i ∧ i < k ∧ h.db.version ci i key ≠ none) ∨ h.db.canonicalValue key = .ok value

def History.CarefulRun (ci : CommitIndex) : History DB → List RoundOp → Prop
  | _, [] => True
  | h, op :: rest => h.Careful ci op ∧ (h.step ci op).CarefulRun ci rest

/-- If the round validates, every last read is what a read would return now. -/
def History.Stands (ci : CommitIndex) (h : History DB) : Prop :=
  h.db.validateRound ci = [] → ∀ k address index v, h.lastRead k (slotKey address index) = some v →
    ((h.db.setCurrentTx ci k).storageRef address index).1 = v

/-- What a careful run keeps: remembered reads are last reads of existing versions, and
unremembered ones returned the canonical value, which they would return again. -/
structure History.Tracked (ci : CommitIndex) (h : History DB) (layer : RoundLayer) : Prop where
  oneRound : OneRound ci h.db layer
  mem : ∀ k key x, h.db.remembered ci k key = some x → h.lastRead k key = some (.ok x) ∧
    ∃ i v, i < k ∧ (layer.versionsOf key).get? i = some v
  canonical : ∀ k key v, h.lastRead k key = some v → h.db.remembered ci k key = none →
    v = h.db.canonicalValue key ∧
      ((lastBelow (layer.versionsOf key) k).map Except.ok).getD (h.db.canonicalValue key) =
        h.db.canonicalValue key

theorem History.tracked_start (canonical : DB) (coinbase : Address) (ci : CommitIndex) :
    (History.start canonical coinbase ci).Tracked ci (.new ci) where
  oneRound := by
    refine ⟨fun c => ?_, fun key i v hv => by cases hv⟩
    show ((∅ : OrdMap CommitIndex RoundLayer).upsert ci (.new ci) id).get? c = _
    rw [OrdMap.get?_upsert]
    rfl
  mem := by
    intro k key x hx
    have hlayer : (History.start canonical coinbase ci).db.layers.get? ci = some (.new ci) := by
      show ((∅ : OrdMap CommitIndex RoundLayer).upsert ci (.new ci) id).get? ci = _
      rw [OrdMap.get?_upsert, if_pos rfl]
      rfl
    rw [remembered, hlayer] at hx
    cases hx
  canonical := by intro k key v hv; cases hv

omit [DatabaseRef DB] in
/-- What is remembered is what the layer of the round holds. -/
theorem OneRound.remembered {ci : CommitIndex} {s : ShadowDb DB} {layer : RoundLayer}
    (h : OneRound ci s layer) (k : TxIndex) (key : SlotKey) :
    s.remembered ci k key = (layer.txReads.get? k).bind (·.get? key) := by
  rw [ShadowDb.remembered, h.only ci, if_pos rfl, Option.bind_some]

theorem History.Tracked.record {ci : CommitIndex} {h : History DB} {layer : RoundLayer}
    (ht : h.Tracked ci layer) {tx : TxIndex} {state : EvmState} (hc : h.Careful ci (.record tx state)) :
    (h.step ci (.record tx state)).Tracked ci (layer.recordState h.db.coinbase tx state) := by
  have hlayer : h.db.layers.get? ci = some layer := by rw [ht.oneRound.only ci, if_pos rfl]
  have hupd := layer.recordState_updated h.db.coinbase tx state
  have hone : OneRound ci (h.step ci (.record tx state)).db (layer.recordState h.db.coinbase tx state) := by
    refine ⟨fun c => ?_, fun key i v hv => ?_⟩
    · show (h.db.layers.upsert ci (.new ci) (·.recordState h.db.coinbase tx state)).get? c = _
      rw [OrdMap.get?_upsert]
      split_ifs with hc
      · rw [hlayer]
        rfl
      · rw [ht.oneRound.only c, if_neg hc]
    · rcases hupd key with heq | ⟨value, -, heq⟩
      · rw [heq] at hv
        exact ht.oneRound.data key i v hv
      · rw [heq, OrdMap.get?_insert] at hv
        split_ifs at hv
        · exact ⟨value, (Option.some.inj hv).symm⟩
        · exact ht.oneRound.data key i v hv
  have hmem : ∀ k key, (h.step ci (.record tx state)).db.remembered ci k key =
      h.db.remembered ci k key := by
    intro k key
    rw [hone.remembered, ht.oneRound.remembered, RoundLayer.recordState_txReads]
  refine ⟨hone, fun k key x hx => ?_, fun k key v hv hnone => ?_⟩
  · rw [hmem] at hx
    obtain ⟨hlast, i, v, hi, hv⟩ := ht.mem k key x hx
    refine ⟨hlast, i, ?_⟩
    rcases hupd key with heq | ⟨value, -, heq⟩
    · exact ⟨v, hi, heq ▸ hv⟩
    · rw [heq, OrdMap.get?_insert]
      by_cases hitx : i = tx
      · exact ⟨.data value, hi, if_pos hitx⟩
      · exact ⟨v, hi, by rw [if_neg hitx, hv]⟩
  · rw [hmem] at hnone
    obtain ⟨hvcanon, hnow⟩ := ht.canonical k key v hv hnone
    refine ⟨hvcanon, ?_⟩
    show ((lastBelow _ k).map Except.ok).getD (h.db.canonicalValue key) = h.db.canonicalValue key
    rcases lastBelow_updated (hupd key) (ht.oneRound.data key) k with
      hsame | ⟨htx, hbetween, value, hwrites, hvalue⟩
    · rw [hsame, hnow]
    · have hread : h.lastRead k key ≠ none := fun hnone => by
        rw [show h.lastRead k key = some v from hv] at hnone
        cases hnone
      rcases hc key value hwrites k htx hread hnone with ⟨i, hi, hik, hver⟩ | hcanon
      · refine absurd ?_ hver
        rw [version, versionsAt, hlayer]
        exact hbetween i hi hik
      · rw [hvalue, hcanon]
        rfl

omit [DatabaseRef DB] in
theorem OneRound.recordRead {ci : CommitIndex} {s : ShadowDb DB} {layer : RoundLayer}
    (h : OneRound ci s layer) {key : SlotKey} {tx : TxIndex} {f : Found} (hci : f.writerCi = ci)
    (hpend : f.wasPending = false) (c : CommitIndex) :
    (ShadowDb.recordRead s.layers key ci tx f).get? c =
      if c = ci then some (afterRead layer key tx f) else none := by
  have hans : f.answers = true := by rw [Found.answers, hpend]; rfl
  simp only [ShadowDb.recordRead, hans, if_true, hci, OrdMap.get?_modify, h.only]
  split_ifs
  · rfl
  · rfl

omit [DatabaseRef DB] in
theorem afterRead_versionsOf (layer : RoundLayer) (key : SlotKey) (tx : TxIndex) (f : Found)
    (key' : SlotKey) : (afterRead layer key tx f).versionsOf key' = layer.versionsOf key' :=
  layer.versionsOf_addReader key key' f.writerTx tx

omit [DatabaseRef DB] in
theorem afterRead_txReads (layer : RoundLayer) (key : SlotKey) (tx : TxIndex) (f : Found) (k : TxIndex)
    (key' : SlotKey) : ((afterRead layer key tx f).txReads.get? k).bind (·.get? key') =
      if k = tx ∧ key' = key then some f.value else (layer.txReads.get? k).bind (·.get? key') := by
  rw [afterRead, OrdMap.get?_upsert]
  by_cases hk : k = tx
  · subst hk
    rw [if_pos rfl, Option.bind_some, OrdMap.get?_insert]
    by_cases hkey : key' = key
    · rw [if_pos hkey, if_pos ⟨rfl, hkey⟩]
    · rw [if_neg hkey, if_neg fun h => hkey h.2]
      cases layer.txReads.get? k with
      | none => rfl
      | some reads => rfl
  · rw [if_neg hk, if_neg fun h => hk h.1]

/-- A read answered by the canonical database leaves no trace in the layer. -/
theorem History.Tracked.read_canonical {ci : CommitIndex} {h : History DB} {layer : RoundLayer}
    (ht : h.Tracked ci layer) {tx : TxIndex} {address : Address} {index : StorageKey}
    (hnone : readLayer ci true tx { versions := layer.versionsOf (slotKey address index) } = none) :
    (h.step ci (.read tx address index)).Tracked ci layer := by
  have hresult := storageRef_eq h.db ci tx address index
  rw [ht.oneRound.search, hnone] at hresult
  have hstep : h.step ci (.read tx address index) =
      ⟨h.db.setCurrentTx ci tx, fun k key => if k = tx ∧ key = slotKey address index
        then some (h.db.canonicalValue (slotKey address index)) else h.lastRead k key⟩ := by
    rw [History.step, hresult]
    rfl
  rw [hstep]
  refine ⟨⟨ht.oneRound.only, ht.oneRound.data⟩, fun k key x hx => ?_, fun k key v hv hrem => ?_⟩
  · obtain ⟨hlast, i, v, hi, hv⟩ := ht.mem k key x hx
    have hother : ¬ (k = tx ∧ key = slotKey address index) := by
      rintro ⟨rfl, rfl⟩
      obtain ⟨y, rfl⟩ := ht.oneRound.data _ i v hv
      cases maxWriter_eq_none.mp (readLayer_eq_none.mp hnone) i _ (fun _ => hi) hv
    exact ⟨(if_neg hother).trans hlast, i, v, hi, hv⟩
  · by_cases hself : k = tx ∧ key = slotKey address index
    · obtain ⟨rfl, rfl⟩ := hself
      have hlast : lastBelow (layer.versionsOf (slotKey address index)) k = none := by
        rw [lastBelow, (@readLayer_data ci k _ (ht.oneRound.data _)).1, hnone]
        rfl
      rw [hlast]
      exact ⟨Option.some.inj (hv.symm.trans (if_pos ⟨rfl, rfl⟩)), rfl⟩
    · exact ht.canonical k key v ((if_neg hself).symm.trans hv) hrem

/-- A read answered by the round is remembered. -/
theorem History.Tracked.read_version {ci : CommitIndex} {h : History DB} {layer : RoundLayer}
    (ht : h.Tracked ci layer) {tx : TxIndex} {address : Address} {index : StorageKey} {f : Found}
    (hread : readLayer ci true tx { versions := layer.versionsOf (slotKey address index) } = some f) :
    (h.step ci (.read tx address index)).Tracked ci (afterRead layer (slotKey address index) tx f) := by
  obtain ⟨hci, hpend, v₀, hlt, hv₀⟩ := (@readLayer_data ci tx _ (ht.oneRound.data _)).2 f hread
  have hresult := storageRef_eq h.db ci tx address index
  rw [ht.oneRound.search, hread] at hresult
  have hstep : h.step ci (.read tx address index) =
      ⟨{ h.db.setCurrentTx ci tx with
          layers := ShadowDb.recordRead h.db.layers (slotKey address index) ci tx f },
        fun k key => if k = tx ∧ key = slotKey address index
          then some (.ok f.value) else h.lastRead k key⟩ := by
    rw [History.step, hresult]
    simp only [answer, Found.answers, hpend]
    rfl
  rw [hstep]
  have hone : OneRound ci { h.db.setCurrentTx ci tx with
      layers := ShadowDb.recordRead h.db.layers (slotKey address index) ci tx f }
      (afterRead layer (slotKey address index) tx f) := by
    refine ⟨fun c => ht.oneRound.recordRead hci hpend c, fun key i v hv => ?_⟩
    rw [afterRead_versionsOf] at hv
    exact ht.oneRound.data key i v hv
  refine ⟨hone, fun k key x hx => ?_, fun k key v hv hrem => ?_⟩
  · rw [hone.remembered, afterRead_txReads, ← ht.oneRound.remembered] at hx
    rw [afterRead_versionsOf]
    by_cases hself : k = tx ∧ key = slotKey address index
    · rw [if_pos hself] at hx
      obtain ⟨rfl, rfl⟩ := hself
      exact ⟨(if_pos ⟨rfl, rfl⟩).trans (by rw [Option.some.inj hx]), f.writerTx, v₀, hlt, hv₀⟩
    · rw [if_neg hself] at hx
      obtain ⟨hlast, hver⟩ := ht.mem k key x hx
      exact ⟨(if_neg hself).trans hlast, hver⟩
  · rw [hone.remembered, afterRead_txReads, ← ht.oneRound.remembered] at hrem
    by_cases hself : k = tx ∧ key = slotKey address index
    · rw [if_pos hself] at hrem
      cases hrem
    · rw [if_neg hself] at hrem
      rw [afterRead_versionsOf]
      exact ht.canonical k key v ((if_neg hself).symm.trans hv) hrem

theorem History.Tracked.step {ci : CommitIndex} {h : History DB} {layer : RoundLayer}
    (ht : h.Tracked ci layer) {op : RoundOp} (hc : h.Careful ci op) :
    ∃ layer', (h.step ci op).Tracked ci layer' := by
  cases op with
  | record tx state => exact ⟨_, ht.record hc⟩
  | read tx address index =>
    cases hread : readLayer ci true tx { versions := layer.versionsOf (slotKey address index) } with
    | none => exact ⟨_, ht.read_canonical hread⟩
    | some f => exact ⟨_, ht.read_version hread⟩

theorem History.Tracked.run {ci : CommitIndex} {h : History DB} {layer : RoundLayer}
    (ht : h.Tracked ci layer) {ops : List RoundOp} (hc : h.CarefulRun ci ops) :
    ∃ layer', (h.run ci ops).Tracked ci layer' := by
  induction ops generalizing h layer with
  | nil => exact ⟨layer, ht⟩
  | cons op rest ih =>
    obtain ⟨layer', ht'⟩ := ht.step hc.1
    exact ih ht' hc.2

omit [DatabaseRef DB] in
theorem readsStand_of_validated {s : ShadowDb DB} {ci : CommitIndex} {layer : RoundLayer}
    (hlayer : s.layers.get? ci = some layer) (h : s.validateRound ci = []) {k : TxIndex}
    {reads : OrdMap SlotKey StorageValue} (hk : layer.txReads.get? k = some reads) :
    readsStand layer k reads = true := by
  simp only [validateRound, hlayer, List.destutter_eq_nil] at h
  have hnil := List.perm_nil.mp (h ▸ (List.perm_insertionSort _ _).symm)
  by_contra hnot
  have hmem : k ∈ (layer.txReads.entries.filter fun e => !readsStand layer e.1 e.2).map Prod.fst :=
    List.mem_map.mpr ⟨(k, reads), List.mem_filter.mpr ⟨OrdMap.get?_eq_some_iff.mp hk, by simpa using hnot⟩,
      rfl⟩
  rw [hnil] at hmem
  cases hmem

/-- A validated state in which the reads are tracked has no stale read. -/
theorem History.Tracked.stands {ci : CommitIndex} {h : History DB} {layer : RoundLayer}
    (ht : h.Tracked ci layer) : h.Stands ci := by
  intro hvalid k address index v hv
  have hlayer : h.db.layers.get? ci = some layer := by rw [ht.oneRound.only ci, if_pos rfl]
  rw [ht.oneRound.storageRef]
  cases hrem : h.db.remembered ci k (slotKey address index) with
  | none =>
    obtain ⟨hcanon, hnow⟩ := ht.canonical k _ v hv hrem
    rw [hcanon]
    exact hnow
  | some x =>
    obtain ⟨hlast, i, u, -, hu⟩ := ht.mem k _ x hrem
    rw [hlast] at hv
    rw [ht.oneRound.remembered] at hrem
    obtain ⟨reads, hreads, hx⟩ := Option.bind_eq_some_iff.mp hrem
    have hstand := readsStand_of_validated hlayer hvalid hreads
    rw [readsStand, List.all_eq_true] at hstand
    have hentry := hstand _ (OrdMap.get?_eq_some_iff.mp hx)
    rw [RoundLayer.versionsOf] at hu ⊢
    cases hsv : layer.slotVersions.get? (slotKey address index) with
    | none =>
      rw [hsv] at hu
      cases hu
    | some sv =>
      have hlastx : lastBelow sv.versions k = some x := by
        simp only [hsv, beq_iff_eq] at hentry
        exact hentry
      show ((lastBelow sv.versions k).map Except.ok).getD _ = v
      rw [hlastx]
      exact Option.some.inj hv

theorem History.CarefulRun.of_append {ci : CommitIndex} {h : History DB}
    {l r : List RoundOp} (hc : h.CarefulRun ci (l ++ r)) : h.CarefulRun ci l := by
  induction l generalizing h with
  | nil => trivial
  | cons op rest ih => exact ⟨hc.1, ih hc.2⟩

/-- **Validation.** In a run of reads and records of one round, in any order, whose
records are all careful: in every state reached, if the round validates, the last
read of every slot by every transaction returned what it would return now. -/
theorem validated_reads_stand (canonical : DB) (coinbase : Address) (ci : CommitIndex)
    (ops : List RoundOp) (hc : (History.start canonical coinbase ci).CarefulRun ci ops) :
    ∀ done, done <+: ops → ((History.start canonical coinbase ci).run ci done).Stands ci := by
  intro done hdone
  obtain ⟨later, rfl⟩ := hdone
  obtain ⟨layer, ht⟩ := (History.tracked_start canonical coinbase ci).run hc.of_append
  exact ht.stands

/-- Transaction 1 reads after transaction 0 has recorded: it reads the new value, and
the round validates. -/
theorem validated_in_order :
    let ops : List RoundOp := [.record 0 (oneWrite 7), .read 1 0 0, .record 1 ∅]
    let h := (History.start EmptyDb.mk 1 1).run 1 ops
    (History.start EmptyDb.mk 1 1).CarefulRun 1 ops ∧ h.db.validateRound 1 = [] ∧
      h.lastRead 1 (slotKey 0 0) = some (.ok 7) ∧ h.Stands 1 := by
  have hc : (History.start EmptyDb.mk 1 1).CarefulRun 1
      [.record 0 (oneWrite 7), .read 1 0 0, .record 1 ∅] := by
    refine ⟨fun key value _ k _ hread => absurd rfl hread, trivial, fun key value hw => ?_, trivial⟩
    obtain ⟨account, slot, haccount, -⟩ := hw
    cases haccount
  exact ⟨hc, by decide +kernel, by decide +kernel,
    validated_reads_stand EmptyDb.mk 1 1 _ hc _ (List.prefix_refl _)⟩

/-- Transaction 1 reads the canonical value before transaction 0 records: the round
validates, and the read is stale. -/
theorem canonical_read_not_validated :
    let h := (History.start EmptyDb.mk 1 1).run 1 [.read 1 0 0, .record 0 (oneWrite 7), .record 1 ∅]
    h.db.validateRound 1 = [] ∧ h.lastRead 1 (slotKey 0 0) = some (.ok 0) ∧
      ((h.db.setCurrentTx 1 1).storageRef 0 0).1 = .ok 7 ∧ ¬ h.Stands 1 := by
  refine ⟨by decide +kernel, by decide +kernel, by decide +kernel, fun h => ?_⟩
  exact absurd (h (by decide +kernel) 1 0 0 (.ok 0) (by decide +kernel)) (by decide +kernel)

end ShadowDb

end DualOptimistic.Shadow
