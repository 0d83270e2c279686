import DualOptimistic.Shadow.ShadowDb

/-! What a read at a position can see.

Both lookups search the layers from the newest down, so each is a downward search
over what the layers contribute to the reader (`readlastStorage_fst`,
`searchAccount_eq`). Layers above the reader's round count as older ones: a read
is isolated from them exactly if they hold nothing (`isolated_iff_noFuture`). -/
namespace DualOptimistic.Shadow
open Data

namespace ShadowDb
variable {DB : Type}

/-! ### Lookups as downward searches -/

theorem readlastInLayer_eq (sv : SlotVersions) (tx : TxIndex) :
    readlastInLayer sv tx =
      (sv.versions.findLast fun i v => if i < tx then v.data? else none).map Prod.snd := by
  rw [readlastInLayer, OrdMap.findSome?_range sv.versions (fun i => decide (i < tx)) fun _ v => v.data?]
  simp only [decide_eq_true_eq]

theorem maxWriter_eq (sv : SlotVersions) (own : Bool) (tx : TxIndex) :
    maxWriter sv own tx = (sv.versions.findLast fun i v =>
      if !own || decide (i < tx) then (if !v.isAbsent then some i else none) else none).map Prod.snd := by
  rw [← OrdMap.findSome?_range sv.versions (fun i => !own || decide (i < tx))
    fun i v => if !v.isAbsent then some i else none, maxWriter, List.find?_eq_findSome?_guard,
    List.map_findSome?]
  congr 1
  funext e
  cases h : !e.2.isAbsent <;> simp [Option.guard, h]

theorem readAccount_eq (own : Bool) (tx : TxIndex) (versions : OrdMap TxIndex AccountInfo) :
    readAccount own tx versions = (versions.findLast fun i info =>
      if !own || decide (i < tx) then some info else none).map Prod.snd := by
  rw [← OrdMap.findSome?_range versions (fun i => !own || decide (i < tx)) fun _ info => some info,
    readAccount, List.getLast?_eq_head?_reverse]
  cases (versions.range fun i => !own || decide (i < tx)).reverse with
  | nil => rfl
  | cons e rest => rfl

theorem searchLayers_eq {α : Type} (layers : OrdMap CommitIndex RoundLayer)
    (answer : CommitIndex → RoundLayer → Option α) :
    searchLayers layers answer = (layers.findLast answer).map Prod.snd := by
  rw [searchLayers, OrdMap.findLast, List.map_findSome?]
  congr 1
  funext e
  cases h : answer e.1 e.2 <;> simp [h]

/-! ### What a layer contributes -/

/-- The versions of a slot in round `ci`. -/
def versionsAt (s : ShadowDb DB) (ci : CommitIndex) (key : SlotKey) : OrdMap TxIndex VersionedValue :=
  (((s.layers.get? ci).bind (·.slotVersions.get? key)).map SlotVersions.versions).getD ∅

/-- The versions of an account in round `ci`. -/
def accountVersionsAt (s : ShadowDb DB) (ci : CommitIndex) (address : Address) :
    OrdMap TxIndex AccountInfo :=
  ((s.layers.get? ci).bind (·.accountVersions.get? address)).getD ∅

/-- The reader lists do not matter to a read, and a slot without versions answers nothing. -/
theorem bind_readLayer (s : ShadowDb DB) (c : CommitIndex) (key : SlotKey) (own : Bool) (tx : TxIndex) :
    ((s.layers.get? c).bind fun layer => (layer.slotVersions.get? key).bind (readLayer c own tx)) =
      readLayer c own tx { versions := s.versionsAt c key } := by
  rw [← Option.bind_assoc, versionsAt]
  cases (s.layers.get? c).bind (·.slotVersions.get? key) with
  | none => rfl
  | some sv => rfl

theorem bind_readAccount (s : ShadowDb DB) (c : CommitIndex) (address : Address) (own : Bool)
    (tx : TxIndex) :
    ((s.layers.get? c).bind fun layer => (layer.accountVersions.get? address).bind (readAccount own tx)) =
      readAccount own tx (s.accountVersionsAt c address) := by
  rw [← Option.bind_assoc, accountVersionsAt]
  cases (s.layers.get? c).bind (·.accountVersions.get? address) with
  | none => rfl
  | some versions => rfl

/-- Whether the reader sees index `i` of a round: below its own in its own round. -/
def Visible (own : Bool) (tx i : TxIndex) : Prop := own = true → i < tx

theorem visible_iff {own : Bool} {tx i : TxIndex} :
    (!own || decide (i < tx)) = true ↔ Visible own tx i := by
  cases own <;> simp [Visible]

/-- A downward search through the visible indices depends on nothing else. -/
theorem findLast_visible {ν α : Type} {own : Bool} {tx : TxIndex} {m m' : OrdMap TxIndex ν}
    (f : TxIndex → ν → Option α) (h : ∀ i, Visible own tx i → m.get? i = m'.get? i) :
    (m.findLast fun i v => if !own || decide (i < tx) then f i v else none) =
      m'.findLast fun i v => if !own || decide (i < tx) then f i v else none := by
  apply OrdMap.findLast_congr
  intro i
  by_cases hi : (!own || decide (i < tx)) = true
  · rw [h i (visible_iff.mp hi)]
  · simp only [hi]
    cases m.get? i <;> cases m'.get? i <;> rfl

theorem maxWriter_visible {sv : SlotVersions} {own : Bool} {tx w : TxIndex}
    (h : maxWriter sv own tx = some w) :
    Visible own tx w ∧ ∃ v, sv.versions.get? w = some v ∧ v.isAbsent = false := by
  rw [maxWriter_eq] at h
  obtain ⟨⟨k, i⟩, hfind, hi⟩ := Option.map_eq_some_iff.mp h
  obtain ⟨hk, -⟩ := OrdMap.findLast_eq_some.mp hfind
  obtain ⟨v, hv, hif⟩ := Option.bind_eq_some_iff.mp hk
  split_ifs at hif with hvis habs
  have hki : k = i := Option.some.inj hif
  have hiw : i = w := hi
  subst hki hiw
  exact ⟨visible_iff.mp hvis, v, hv, by simpa using habs⟩

/-- What the reader sees above the writer found is absent. -/
theorem maxWriter_above {sv : SlotVersions} {own : Bool} {tx w : TxIndex}
    (h : maxWriter sv own tx = some w) {i : TxIndex} {v : VersionedValue} (hi : w < i)
    (hvis : Visible own tx i) (hv : sv.versions.get? i = some v) : v.isAbsent = true := by
  rw [maxWriter_eq] at h
  obtain ⟨⟨k, i'⟩, hfind, hi'⟩ := Option.map_eq_some_iff.mp h
  obtain ⟨hk, habove⟩ := OrdMap.findLast_eq_some.mp hfind
  obtain ⟨u, -, hif⟩ := Option.bind_eq_some_iff.mp hk
  split_ifs at hif
  have hkw : k = w := (Option.some.inj hif).trans hi'
  have hnone := habove i (hkw ▸ hi)
  rw [hv, Option.bind_some, if_pos (visible_iff.mpr hvis)] at hnone
  by_contra hnot
  rw [if_pos (by simpa using hnot)] at hnone
  cases hnone

/-- Nothing is found among versions the reader does not see or that are absent. -/
theorem maxWriter_eq_none {sv : SlotVersions} {own : Bool} {tx : TxIndex} :
    maxWriter sv own tx = none ↔
      ∀ i v, Visible own tx i → sv.versions.get? i = some v → v.isAbsent = true := by
  rw [maxWriter_eq, Option.map_eq_none_iff, OrdMap.findLast_eq_none]
  refine forall_congr' fun i => ?_
  cases hget : sv.versions.get? i with
  | none => simp
  | some v =>
    by_cases hvis : Visible own tx i
    · simp [visible_iff.mpr hvis, hvis]
    · simp [mt visible_iff.mp hvis, hvis]

theorem readLayer_eq_none {c : CommitIndex} {own : Bool} {tx : TxIndex} {sv : SlotVersions} :
    readLayer c own tx sv = none ↔ maxWriter sv own tx = none := by
  rw [readLayer]
  cases hw : maxWriter sv own tx with
  | none => simp
  | some w =>
    obtain ⟨-, v, hv, habs⟩ := maxWriter_visible hw
    cases v with
    | data value => simp [hv]
    | pending => simp [hv]
    | absent => cases habs

/-- An answer comes from the highest writer the reader sees: its value if that is confirmed,
what is below it if it is pending. -/
theorem readLayer_cases {c : CommitIndex} {own : Bool} {tx : TxIndex} {sv : SlotVersions} {f : Found}
    (h : readLayer c own tx sv = some f) : f.writerCi = c ∧ maxWriter sv own tx = some f.writerTx ∧
      (f.wasPending = false ∧ sv.versions.get? f.writerTx = some (.data f.value) ∨
        f.wasPending = true ∧ sv.versions.get? f.writerTx = some .pending ∧
          f.value = (readlastInLayer sv f.writerTx).getD 0) := by
  unfold readLayer at h
  split at h
  · cases h
  · rename_i writer hmax
    split at h
    · rename_i value hget
      obtain rfl := Option.some.inj h
      exact ⟨rfl, hmax, .inl ⟨rfl, hget⟩⟩
    · rename_i hget
      obtain rfl := Option.some.inj h
      exact ⟨rfl, hmax, .inr ⟨rfl, hget, rfl⟩⟩
    · cases h
    · cases h

/-- Only the visible versions matter. -/
theorem readLayer_congr {c : CommitIndex} {own : Bool} {tx : TxIndex} {sv sv' : SlotVersions}
    (h : ∀ i, Visible own tx i → sv.versions.get? i = sv'.versions.get? i) :
    readLayer c own tx sv = readLayer c own tx sv' := by
  have hmax : maxWriter sv own tx = maxWriter sv' own tx := by
    rw [maxWriter_eq, maxWriter_eq, findLast_visible _ h]
  rw [readLayer, readLayer, hmax]
  cases hw : maxWriter sv' own tx with
  | none => rfl
  | some w =>
    obtain ⟨hvis, -⟩ := maxWriter_visible hw
    -- what lies below a visible writer is visible, so the fallback is the same
    have hlast : readlastInLayer sv w = readlastInLayer sv' w := by
      rw [readlastInLayer_eq, readlastInLayer_eq]
      congr 1
      apply OrdMap.findLast_congr
      intro i
      by_cases hi : i < w
      · rw [h i fun hown => hi.trans (hvis hown)]
      · simp only [hi, if_false]
        cases sv.versions.get? i <;> cases sv'.versions.get? i <;> rfl
    simp only [h w hvis, hlast]

theorem readAccount_eq_none {own : Bool} {tx : TxIndex} {m : OrdMap TxIndex AccountInfo} :
    readAccount own tx m = none ↔ ∀ i, Visible own tx i → m.get? i = none := by
  rw [readAccount_eq, Option.map_eq_none_iff, OrdMap.findLast_eq_none]
  refine forall_congr' fun i => ?_
  by_cases hvis : Visible own tx i
  · simp [visible_iff.mpr hvis, hvis]
  · simp [mt visible_iff.mp hvis, hvis]

theorem readAccount_congr {own : Bool} {tx : TxIndex} {m m' : OrdMap TxIndex AccountInfo}
    (h : ∀ i, Visible own tx i → m.get? i = m'.get? i) :
    readAccount own tx m = readAccount own tx m' := by
  rw [readAccount_eq, readAccount_eq, findLast_visible _ h]

/-- The answer of the search is that of the layer it names. -/
theorem searchStorage_some {s : ShadowDb DB} {key : SlotKey} {ci : CommitIndex} {tx : TxIndex} {f : Found}
    (h : searchStorage s.layers key ci tx = some f) :
    readLayer f.writerCi (f.writerCi == ci) tx { versions := s.versionsAt f.writerCi key } = some f := by
  rw [searchStorage, searchLayers_eq] at h
  obtain ⟨⟨c, f'⟩, hfind, rfl⟩ := Option.map_eq_some_iff.mp h
  have hread := (OrdMap.findLast_eq_some.mp hfind).1
  rw [bind_readLayer] at hread
  rwa [← (readLayer_cases hread).1] at hread

/-! ### Positions -/

/-- What stands at a position for a slot. -/
def version (s : ShadowDb DB) (c : CommitIndex) (i : TxIndex) (key : SlotKey) : Option VersionedValue :=
  (s.versionsAt c key).get? i

/-- What stands at a position for an account. -/
def accountVersion (s : ShadowDb DB) (c : CommitIndex) (i : TxIndex) (address : Address) :
    Option AccountInfo :=
  (s.accountVersionsAt c address).get? i

/-- Position `(c, i)` comes before `(ci, tx)`. -/
def Before (c : CommitIndex) (i : TxIndex) (ci : CommitIndex) (tx : TxIndex) : Prop :=
  c < ci ∨ c = ci ∧ i < tx

/-- The states agree on the canonical database and on every position before `(ci, tx)`. -/
structure AgreeBefore (ci : CommitIndex) (tx : TxIndex) (s s' : ShadowDb DB) : Prop where
  canonical : s.canonical = s'.canonical
  slots : ∀ c i key, Before c i ci tx → s.version c i key = s'.version c i key
  accounts : ∀ c i address, Before c i ci tx → s.accountVersion c i address = s'.accountVersion c i address

/-- The states agree on the layers above `ci`. -/
def SameAbove (ci : CommitIndex) (s s' : ShadowDb DB) : Prop :=
  ∀ c, ci < c → s.layers.get? c = s'.layers.get? c

/-- The layers above `ci` hold nothing but absent versions. -/
structure NoFuture (ci : CommitIndex) (s : ShadowDb DB) : Prop where
  slots : ∀ c i key v, ci < c → s.version c i key = some v → v = .absent
  accounts : ∀ c i address, ci < c → s.accountVersion c i address = none

/-- Every slot and every account reads the same at `(ci, tx)`. -/
def SameReads [DatabaseRef DB] (ci : CommitIndex) (tx : TxIndex) (s s' : ShadowDb DB) : Prop :=
  (∀ address index, ((s.setCurrentTx ci tx).storageRef address index).1 =
      ((s'.setCurrentTx ci tx).storageRef address index).1) ∧
    ∀ address, (s.setCurrentTx ci tx).basicRef address = (s'.setCurrentTx ci tx).basicRef address

/-- What `r` holds above `ci` is never seen at `(ci, tx)`, whatever stands before: a
state with it reads as any state that holds nothing above `ci` and agrees before. -/
def Isolated [DatabaseRef DB] (ci : CommitIndex) (tx : TxIndex) (r : ShadowDb DB) : Prop :=
  ∀ s s' : ShadowDb DB, SameAbove ci s r → NoFuture ci s' → AgreeBefore ci tx s s' →
    SameReads ci tx s s'

/-! ### Nothing above: the reads agree -/

theorem readLayer_noFuture {ci c : CommitIndex} {s : ShadowDb DB} (h : NoFuture ci s) (hc : ci < c)
    (own : Bool) (tx : TxIndex) (key : SlotKey) :
    readLayer c own tx { versions := s.versionsAt c key } = none := by
  have hmax : maxWriter { versions := s.versionsAt c key } own tx = none := by
    rw [maxWriter_eq_none]
    intro i v _ hv
    rw [h.slots c i key v hc hv]
    rfl
  rw [readLayer, hmax]

theorem readAccount_noFuture {ci c : CommitIndex} {s : ShadowDb DB} (h : NoFuture ci s) (hc : ci < c)
    (own : Bool) (tx : TxIndex) (address : Address) :
    readAccount own tx (s.accountVersionsAt c address) = none := by
  have hempty : s.accountVersionsAt c address = ∅ :=
    OrdMap.ext_get? fun i => h.accounts c i address hc
  rw [hempty]
  rfl

/-- What a reader of round `ci` sees of layer `c`, by where the layer stands. -/
theorem before_of_visible {c ci : CommitIndex} {tx i : TxIndex} (hc : c ≤ ci)
    (hvis : Visible (c == ci) tx i) : Before c i ci tx := by
  rcases Nat.lt_or_eq_of_le hc with hlt | rfl
  · exact .inl hlt
  · exact .inr ⟨rfl, hvis (beq_self_eq_true c)⟩

theorem searchStorage_congr {ci : CommitIndex} {tx : TxIndex} {s s' : ShadowDb DB} (hs : NoFuture ci s)
    (hs' : NoFuture ci s') (h : AgreeBefore ci tx s s') (key : SlotKey) :
    searchStorage s.layers key ci tx = searchStorage s'.layers key ci tx := by
  rw [searchStorage, searchStorage, searchLayers_eq, searchLayers_eq]
  congr 1
  apply OrdMap.findLast_congr
  intro c
  rw [bind_readLayer, bind_readLayer]
  rcases Nat.lt_or_ge ci c with hc | hc
  · rw [readLayer_noFuture hs hc, readLayer_noFuture hs' hc]
  · exact readLayer_congr fun i hvis => h.slots c i key (before_of_visible hc hvis)

theorem readlastAccount_congr {ci : CommitIndex} {tx : TxIndex} {s s' : ShadowDb DB}
    (hs : NoFuture ci s) (hs' : NoFuture ci s') (h : AgreeBefore ci tx s s') (address : Address) :
    s.readlastAccount address ci tx = s'.readlastAccount address ci tx := by
  rw [readlastAccount, readlastAccount, searchLayers_eq, searchLayers_eq]
  congr 1
  apply OrdMap.findLast_congr
  intro c
  rw [bind_readAccount, bind_readAccount]
  rcases Nat.lt_or_ge ci c with hc | hc
  · rw [readAccount_noFuture hs hc, readAccount_noFuture hs' hc]
  · exact readAccount_congr fun i hvis => h.accounts c i address (before_of_visible hc hvis)

section
variable [DatabaseRef DB]

/-- The value a read returns, from what the search found. -/
def answer (canonical : Except String StorageValue) : Option Found → Except String StorageValue
  | some f => if f.answers then .ok f.value else canonical
  | none => canonical

/-- A read at a position: the value, and the dependencies it leaves behind. -/
theorem storageRef_eq (s : ShadowDb DB) (ci : CommitIndex) (tx : TxIndex) (address : Address)
    (index : StorageKey) :
    (s.setCurrentTx ci tx).storageRef address index =
      (answer (DatabaseRef.storageRef s.canonical address index)
          (searchStorage s.layers (slotKey address index) ci tx),
        match searchStorage s.layers (slotKey address index) ci tx with
        | none => s.setCurrentTx ci tx
        | some f => { s.setCurrentTx ci tx with
            layers := recordRead s.layers (slotKey address index) ci tx f }) := by
  have hsearch : searchStorage (s.setCurrentTx ci tx).layers (slotKey address index)
      (s.setCurrentTx ci tx).currentCommitIndex (s.setCurrentTx ci tx).currentTx =
      searchStorage s.layers (slotKey address index) ci tx := rfl
  rw [storageRef, readlastStorage, hsearch]
  cases searchStorage s.layers (slotKey address index) ci tx with
  | none => rfl
  | some f =>
    by_cases hf : f.answers = true
    · simp only [answer, hf, if_true]
      rfl
    · simp only [answer, hf]
      rfl

theorem basicRef_eq (s : ShadowDb DB) (ci : CommitIndex) (tx : TxIndex) (address : Address) :
    (s.setCurrentTx ci tx).basicRef address =
      match s.readlastAccount address ci tx with
      | some info => .ok (some info)
      | none => DatabaseRef.basicRef s.canonical address := rfl

/-- With nothing above the reader's round, reads depend on what stands before it only. -/
theorem sameReads_of_noFuture {ci : CommitIndex} {tx : TxIndex} {s s' : ShadowDb DB}
    (hs : NoFuture ci s) (hs' : NoFuture ci s') (h : AgreeBefore ci tx s s') : SameReads ci tx s s' := by
  constructor
  · intro address index
    rw [storageRef_eq, storageRef_eq, searchStorage_congr hs hs' h, h.canonical]
  · intro address
    rw [basicRef_eq, basicRef_eq, readlastAccount_congr hs hs' h, h.canonical]

/-! ### Something above: a read sees it -/

omit [DatabaseRef DB] in
/-- An answer from above `ci` hides the layers up to `ci`. -/
theorem searchLayers_above {α : Type} {layers layers' : OrdMap CommitIndex RoundLayer}
    {answer : CommitIndex → RoundLayer → Option α} {ci c : CommitIndex} (hc : ci < c)
    (hans : (layers.get? c).bind (answer c) ≠ none)
    (hsame : ∀ k, ci < k → layers'.get? k = layers.get? k) :
    searchLayers layers answer = searchLayers layers' answer := by
  rw [searchLayers_eq, searchLayers_eq]
  cases hfind : layers.findLast answer with
  | none => exact absurd (OrdMap.findLast_eq_none.mp hfind c) hans
  | some e =>
    obtain ⟨k, x⟩ := e
    have hk : c ≤ k := by
      by_contra hlt
      exact hans ((OrdMap.findLast_eq_some.mp hfind).2 c (not_le.mp hlt))
    rw [OrdMap.findLast_of_above hfind fun k' hk' => hsame k' (hc.trans_le (hk.trans hk'))]

/-- A layer with one slot value and one account info, both left by transaction 0. -/
def probeLayer (c : CommitIndex) (key : SlotKey) (value : StorageValue) (address : Address)
    (info : AccountInfo) : RoundLayer where
  commitIndex := c
  slotVersions := OrdMap.insert ∅ key { versions := OrdMap.insert ∅ 0 (.data value) }
  accountVersions := OrdMap.insert ∅ address (OrdMap.insert ∅ 0 info)

/-- A single layer over the canonical database of `r`. -/
def alone (r : ShadowDb DB) (c : CommitIndex) (layer : RoundLayer) : ShadowDb DB :=
  { r with layers := OrdMap.insert ∅ c layer }

/-- The same layer under what `r` holds above `ci`. -/
def under (r : ShadowDb DB) (ci c : CommitIndex) (layer : RoundLayer) : ShadowDb DB :=
  { r with layers := (r.layers.retain fun k => decide (ci < k)).insert c layer }

omit [DatabaseRef DB] in
theorem get?_under_above {r : ShadowDb DB} {ci c k : CommitIndex} (layer : RoundLayer) (hc : c ≤ ci)
    (hk : ci < k) : (under r ci c layer).layers.get? k = r.layers.get? k := by
  rw [under, OrdMap.get?_insert, if_neg (hc.trans_lt hk).ne', OrdMap.get?_retain,
    if_pos (decide_eq_true hk)]

omit [DatabaseRef DB] in
theorem get?_under_below {r : ShadowDb DB} {ci c k : CommitIndex} (layer : RoundLayer) (hk : k ≤ ci) :
    (under r ci c layer).layers.get? k = (alone r c layer).layers.get? k := by
  have hnot : decide (ci < k) = false := decide_eq_false hk.not_gt
  rw [under, alone, OrdMap.get?_insert, OrdMap.get?_insert, OrdMap.get?_retain, hnot]
  rfl

omit [DatabaseRef DB] in
theorem agreeBefore_probe (r : ShadowDb DB) (ci c : CommitIndex) (tx : TxIndex) (layer : RoundLayer) :
    AgreeBefore ci tx (under r ci c layer) (alone r c layer) := by
  have hle : ∀ {k i}, Before k i ci tx → k ≤ ci := by
    intro k i h
    rcases h with h | h
    · exact h.le
    · exact h.1.le
  refine ⟨rfl, fun k i key h => ?_, fun k i address h => ?_⟩
  · rw [version, version, versionsAt, versionsAt, get?_under_below layer (hle h)]
  · rw [accountVersion, accountVersion, accountVersionsAt, accountVersionsAt,
      get?_under_below layer (hle h)]

omit [DatabaseRef DB] in
theorem noFuture_alone (r : ShadowDb DB) {ci c : CommitIndex} (layer : RoundLayer) (hc : c ≤ ci) :
    NoFuture ci (alone r c layer) := by
  have hnone : ∀ k, ci < k → (alone r c layer).layers.get? k = none := by
    intro k hk
    rw [alone, OrdMap.get?_insert, if_neg (hc.trans_lt hk).ne']
    rfl
  refine ⟨fun k i key v hk hv => ?_, fun k i address hk => ?_⟩
  · rw [version, versionsAt, hnone k hk] at hv
    cases hv
  · rw [accountVersion, accountVersionsAt, hnone k hk]
    rfl

/-- Where the probe layer goes: before the reader, if anything is. -/
theorem exists_before {ci : CommitIndex} {tx : TxIndex} (h : 0 < ci ∨ 0 < tx) :
    ∃ c, c ≤ ci ∧ Visible (c == ci) tx 0 := by
  rcases h with h | h
  · refine ⟨0, h.le, fun heq => ?_⟩
    exact absurd (beq_iff_eq.mp heq) h.ne
  · exact ⟨ci, le_rfl, fun _ => h⟩

omit [DatabaseRef DB] in
theorem searchStorage_alone (r : ShadowDb DB) {ci c : CommitIndex} {tx : TxIndex} (key : SlotKey)
    (value : StorageValue) (address : Address) (info : AccountInfo) (h : Visible (c == ci) tx 0) :
    searchStorage (alone r c (probeLayer c key value address info)).layers key ci tx =
      some ⟨c, 0, value, false⟩ := by
  have hvis := visible_iff.mpr h
  have hmax : maxWriter { versions := OrdMap.insert ∅ 0 (.data value) } (c == ci) tx = some 0 := by
    show (([((0 : TxIndex), VersionedValue.data value)].filter
      fun e => !(c == ci) || decide (e.1 < tx)).reverse.find? fun e => !e.2.isAbsent).map Prod.fst = _
    simp only [List.filter_cons, hvis, if_true]
    rfl
  have hget : (OrdMap.insert (∅ : OrdMap SlotKey SlotVersions) key
      { versions := OrdMap.insert ∅ 0 (.data value) }).get? key =
      some { versions := OrdMap.insert ∅ 0 (.data value) } := by
    rw [OrdMap.get?_insert, if_pos rfl]
  show ([(c, probeLayer c key value address info)].reverse.findSome? fun e =>
    (e.2.slotVersions.get? key).bind (readLayer e.1 (e.1 == ci) tx)) = _
  simp only [List.reverse_singleton, List.findSome?_cons, probeLayer, hget, Option.bind_some, readLayer,
    hmax]
  rfl

omit [DatabaseRef DB] in
theorem readlastAccount_alone (r : ShadowDb DB) {ci c : CommitIndex} {tx : TxIndex} (key : SlotKey)
    (value : StorageValue) (address : Address) (info : AccountInfo) (h : Visible (c == ci) tx 0) :
    (alone r c (probeLayer c key value address info)).readlastAccount address ci tx = some info := by
  have hread : readAccount (c == ci) tx (OrdMap.insert ∅ 0 info) = some info := by
    show ([((0 : TxIndex), info)].filter
      fun e => !(c == ci) || decide (e.1 < tx)).getLast?.map Prod.snd = _
    simp only [List.filter_cons, visible_iff.mpr h, if_true]
    rfl
  have hget : (OrdMap.insert (∅ : OrdMap Address (OrdMap TxIndex AccountInfo)) address
      (OrdMap.insert ∅ 0 info)).get? address = some (OrdMap.insert ∅ 0 info) := by
    rw [OrdMap.get?_insert, if_pos rfl]
  show ([(c, probeLayer c key value address info)].reverse.findSome? fun e =>
    (e.2.accountVersions.get? address).bind (readAccount (e.1 == ci) tx)) = _
  simp only [List.reverse_singleton, List.findSome?_cons, probeLayer, hget, Option.bind_some, hread]

omit [DatabaseRef DB] in
theorem versionsAt_under {r : ShadowDb DB} {ci c k : CommitIndex} (layer : RoundLayer) (hc : c ≤ ci)
    (hk : ci < k) (key : SlotKey) : (under r ci c layer).versionsAt k key = r.versionsAt k key := by
  rw [versionsAt, versionsAt, get?_under_above layer hc hk]

omit [DatabaseRef DB] in
theorem accountVersionsAt_under {r : ShadowDb DB} {ci c k : CommitIndex} (layer : RoundLayer)
    (hc : c ≤ ci) (hk : ci < k) (address : Address) :
    (under r ci c layer).accountVersionsAt k address = r.accountVersionsAt k address := by
  rw [accountVersionsAt, accountVersionsAt, get?_under_above layer hc hk]

omit [DatabaseRef DB] in
/-- No reader of an older round has its own round above it. -/
theorem visible_above {ci c : CommitIndex} {tx i : TxIndex} (hc : ci < c) : Visible (c == ci) tx i :=
  fun h => absurd (beq_iff_eq.mp h) hc.ne'

section
variable {ci c₀ : CommitIndex} {tx : TxIndex} {r : ShadowDb DB} (hc₀ : c₀ ≤ ci)
  (hvis : Visible (c₀ == ci) tx 0)
  (hreads : ∀ layer, SameReads ci tx (under r ci c₀ layer) (alone r c₀ layer))
include hc₀ hvis hreads

/-- Two probes read differently alone, but not under a slot version from above. -/
theorem absent_of_sameReads {c : CommitIndex} {i : TxIndex} {key : SlotKey} {v : VersionedValue}
    (hc : ci < c) (hv : r.version c i key = some v) : v = .absent := by
  by_contra hne
  have hread : ∀ value : StorageValue,
      answer (DatabaseRef.storageRef r.canonical (ofLex key).1 (ofLex key).2)
        (searchStorage (under r ci c₀ (probeLayer c₀ key value 0 default)).layers key ci tx) =
          .ok value := by
    intro value
    have hsame := (hreads (probeLayer c₀ key value 0 default)).1 (ofLex key).1 (ofLex key).2
    have hkey : slotKey (ofLex key).1 (ofLex key).2 = key := rfl
    rw [storageRef_eq, storageRef_eq, hkey, searchStorage_alone r key value 0 default hvis] at hsame
    exact hsame
  have hans : ((under r ci c₀ (probeLayer c₀ key 0 0 default)).layers.get? c).bind (fun layer =>
      (layer.slotVersions.get? key).bind (readLayer c (c == ci) tx)) ≠ none := by
    rw [bind_readLayer, versionsAt_under _ hc₀ hc, ne_eq, readLayer_eq_none, maxWriter_eq_none]
    intro hall
    have habs := hall i v (visible_above hc) hv
    cases v with
    | absent => exact hne rfl
    | data value => cases habs
    | pending => cases habs
  have hequal : searchStorage (under r ci c₀ (probeLayer c₀ key 0 0 default)).layers key ci tx =
      searchStorage (under r ci c₀ (probeLayer c₀ key 1 0 default)).layers key ci tx :=
    searchLayers_above hc hans fun k hk => by
      rw [get?_under_above _ hc₀ hk, get?_under_above _ hc₀ hk]
  have h01 : (Except.ok (0 : StorageValue) : Except String StorageValue) = .ok 1 := by
    rw [← hread 0, hequal, hread 1]
  exact absurd h01 (by decide)

/-- The same for an account version. -/
theorem none_of_sameReads {c : CommitIndex} {i : TxIndex} {address : Address} (hc : ci < c) :
    r.accountVersion c i address = none := by
  by_contra hne
  have hread : ∀ info : AccountInfo,
      (match (under r ci c₀ (probeLayer c₀ (slotKey 0 0) 0 address info)).readlastAccount address ci tx with
        | some found => Except.ok (some found)
        | none => DatabaseRef.basicRef r.canonical address) = .ok (some info) := by
    intro info
    have hsame := (hreads (probeLayer c₀ (slotKey 0 0) 0 address info)).2 address
    rw [basicRef_eq, basicRef_eq, readlastAccount_alone r (slotKey 0 0) 0 address info hvis] at hsame
    exact hsame
  have hans : ((under r ci c₀ (probeLayer c₀ (slotKey 0 0) 0 address default)).layers.get? c).bind
      (fun layer => (layer.accountVersions.get? address).bind (readAccount (c == ci) tx)) ≠ none := by
    rw [bind_readAccount, accountVersionsAt_under _ hc₀ hc, ne_eq, readAccount_eq_none]
    exact fun hall => hne (hall i (visible_above hc))
  have hequal : ∀ info,
      (under r ci c₀ (probeLayer c₀ (slotKey 0 0) 0 address default)).readlastAccount address ci tx =
        (under r ci c₀ (probeLayer c₀ (slotKey 0 0) 0 address info)).readlastAccount address ci tx :=
    fun info => searchLayers_above hc hans fun k hk => by
      rw [get?_under_above _ hc₀ hk, get?_under_above _ hc₀ hk]
  have h01 : (Except.ok (some default) : Except String (Option AccountInfo)) = .ok (some { nonce := 1 }) := by
    rw [← hread default, hequal { nonce := 1 }, hread { nonce := 1 }]
  exact absurd h01 (by decide)

end

/-- **Isolation.** Reads at `(ci, tx)` are isolated from what `r` holds above `ci` if it
holds no data, no pending version and no account there, and, unless nothing at all
comes before the position, only then. -/
theorem isolated_iff_noFuture (ci : CommitIndex) (tx : TxIndex) (r : ShadowDb DB) :
    (NoFuture ci r → Isolated ci tx r) ∧ (0 < ci ∨ 0 < tx → (Isolated ci tx r ↔ NoFuture ci r)) := by
  have hif : NoFuture ci r → Isolated ci tx r := by
    intro h s s' hsame hs' hagree
    have hs : NoFuture ci s := by
      refine ⟨fun c i key v hc hv => h.slots c i key v hc ?_, fun c i address hc => ?_⟩
      · rw [version, versionsAt, ← hsame c hc]
        exact hv
      · rw [accountVersion, accountVersionsAt, hsame c hc]
        exact h.accounts c i address hc
    exact sameReads_of_noFuture hs hs' hagree
  refine ⟨hif, fun hpos => ⟨fun h => ?_, hif⟩⟩
  obtain ⟨c₀, hc₀, hvis⟩ := exists_before hpos
  have hreads : ∀ layer, SameReads ci tx (under r ci c₀ layer) (alone r c₀ layer) := fun layer =>
    h _ _ (fun k hk => get?_under_above layer hc₀ hk) (noFuture_alone r layer hc₀)
      (agreeBefore_probe r ci c₀ tx layer)
  exact ⟨fun c i key v hc hv => absent_of_sameReads hc₀ hvis hreads hc hv,
    fun c i address hc => none_of_sameReads hc₀ hvis hreads hc⟩

end

/-- An execution that changes slot 0 of account 0. -/
def oneWrite (value : StorageValue) : EvmState :=
  OrdMap.insert ∅ 0 ⟨{}, OrdMap.insert ∅ 0 ⟨0, value⟩⟩

/-- Slot 0 of account 0 written once, in round 2, by its first transaction. -/
def roundTwoWrite (value : StorageValue) : ShadowDb EmptyDb :=
  (new {} 1).recordTxExecution 2 0 (oneWrite value)

/-- A fresh state is isolated at the first position of round 1, and only what is empty
above it is. -/
theorem isolated_fresh : NoFuture 1 (new EmptyDb.mk 1) ∧ Isolated 1 0 (new EmptyDb.mk 1) ∧
    (Isolated 1 0 (roundTwoWrite 7) ↔ NoFuture 1 (roundTwoWrite 7)) := by
  have hnone : NoFuture 1 (new EmptyDb.mk 1) := by
    refine ⟨fun c i key v _ hv => ?_, fun c i address _ => rfl⟩
    cases hv
  exact ⟨hnone, (isolated_iff_noFuture 1 0 _).1 hnone,
    (isolated_iff_noFuture 1 0 _).2 (.inl Nat.one_pos)⟩

/-- A reader of round 1 sees the write of round 2. -/
theorem reads_from_the_future :
    AgreeBefore 1 0 (roundTwoWrite 7) (new EmptyDb.mk 1) ∧
      ¬ SameReads 1 0 (roundTwoWrite 7) (new EmptyDb.mk 1) := by
  have hnone : ∀ c i, Before c i 1 0 → (roundTwoWrite 7).layers.get? c = none := by
    intro c i h
    rw [roundTwoWrite, recordTxExecution, OrdMap.get?_upsert, if_neg]
    · rfl
    · rintro rfl
      rcases h with h | h
      · exact absurd h (by decide)
      · exact absurd h.1 (by decide)
  refine ⟨⟨rfl, fun c i key h => ?_, fun c i address h => ?_⟩, fun h => ?_⟩
  · rw [version, versionsAt, hnone c i h]
    rfl
  · rw [accountVersion, accountVersionsAt, hnone c i h]
    rfl
  · exact absurd (h.1 0 0) (by decide +kernel)

end ShadowDb

end DualOptimistic.Shadow
