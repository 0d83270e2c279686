import DualOptimistic.Shadow.Finalization

/-! Whom an abort notifies.

A read is registered with one version: the highest that is not absent, in the newest layer the
reader sees any in, under the bare index of the reader. So an abort returns the transactions of
its round that depend on the aborted one, and no others, as long as every read finds its version
in the reader's own round, and finds no pending version above another or above data that answers
(`abort_notifies`). -/
namespace DualOptimistic.Shadow
open Data

namespace ShadowDb
variable {DB : Type}

/-! ### What a read depends on -/

/-- A read of the slot at `(ci, r)` is answered by the version of `w` in layer `ci`, or from below
a pending version of `w` there. -/
def ReadsFrom (s : ShadowDb DB) (key : SlotKey) (ci : CommitIndex) (r w : TxIndex) : Prop :=
  s.storageSource key ci r = some (ci, w) ∨
    s.Newest key ci r ci ∧ w < r ∧ s.version ci w key = some .pending ∧
      ∀ i, s.storageSource key ci r = some (ci, i) → i < w

/-- The newest layer the reader sees a version in is its own, and if a pending version is the
highest there, it is the only one and no data but zero is under it. -/
def ReadsPlainly (s : ShadowDb DB) (key : SlotKey) (ci : CommitIndex) (r : TxIndex) : Prop :=
  ∀ c, s.Newest key ci r c → c = ci ∧ (s.PendingOver key ci r ci →
    (∀ i j, i < r → j < r → s.version ci i key = some .pending → s.version ci j key = some .pending → i = j) ∧
      ∀ i value, s.LastData key ci r ci i value → value = 0)

section
variable {s : ShadowDb DB} {key : SlotKey} {ci : CommitIndex} {r w : TxIndex}

theorem not_readsFrom (h : searchStorage s.layers key ci r = none) : ¬ s.ReadsFrom key ci r w := by
  intro hreads
  rcases hreads with hsource | ⟨hnewest, -⟩
  · rw [storageSource, h] at hsource
    cases hsource
  · obtain ⟨f, hf, -⟩ := readLayer_touched hnewest.1
    rw [searchStorage_newest hnewest, hf] at h
    cases h

/-- The search names the newest layer. -/
theorem newest_of_search {f : Found} (h : searchStorage s.layers key ci r = some f) :
    s.Newest key ci r f.writerCi := by
  rcases s.untouched_or_newest key ci r with huntouched | ⟨c, hnewest⟩
  · rw [searchStorage_untouched huntouched] at h
    cases h
  · rw [searchStorage_newest hnewest] at h
    rwa [(readLayer_cases h).1]

/-- **A plain read** depends on the version it is registered with, and on no other. -/
theorem readsFrom_iff {f : Found} (h : searchStorage s.layers key ci r = some f)
    (hplain : s.ReadsPlainly key ci r) : f.writerCi = ci ∧ (s.ReadsFrom key ci r w ↔ w = f.writerTx) := by
  have hnewest := newest_of_search h
  obtain ⟨hci, hpending⟩ := hplain f.writerCi hnewest
  rw [hci] at hnewest
  refine ⟨hci, ?_⟩
  have hread := searchStorage_some h
  rw [hci] at hread
  obtain ⟨-, hmax, hcases⟩ := readLayer_cases hread
  obtain ⟨hvis, -⟩ := maxWriter_visible hmax
  have hbelow : f.writerTx < r := hvis (beq_self_eq_true ci)
  rcases hcases with ⟨hconfirmed, hdata⟩ | ⟨hwas, hwriter, -⟩
  · have hsource : s.storageSource key ci r = some (ci, f.writerTx) := by
      simp [storageSource, h, Found.answers, hconfirmed, hci]
    constructor
    · intro hreads
      rcases hreads with hsource' | ⟨-, hw, hpend, habove⟩
      · rw [hsource] at hsource'
        exact (Prod.mk.inj (Option.some.inj hsource')).2.symm
      · cases maxWriter_above hmax (habove _ hsource) (fun _ => hw) hpend
    · rintro rfl
      exact .inl hsource
  · obtain ⟨f', hf', -, hover, hvalue, -⟩ := readLayer_touched hnewest.1
    obtain rfl : f = f' := Option.some.inj (hread.symm.trans hf')
    obtain ⟨hunique, hzero⟩ := hpending (hover.mp hwas)
    -- nothing but zero is found, so the read goes on to the canonical database
    have hsource : s.storageSource key ci r = none := by
      have hvalue' : f.value = 0 := by
        cases hlast : s.lastData? key ci r ci with
        | none => rw [hvalue, hlast]; rfl
        | some e =>
          rw [hvalue, hlast]
          exact hzero e.1 e.2 (lastData?_eq_some.mp hlast)
      simp [storageSource, h, Found.answers, hwas, hvalue']
    constructor
    · intro hreads
      rcases hreads with hsource' | ⟨-, hw, hpend, -⟩
      · rw [hsource] at hsource'
        cases hsource'
      · exact hunique w f.writerTx hw hbelow hpend hwriter
    · rintro rfl
      exact .inr ⟨hnewest, hbelow, hwriter, fun i hi => absurd (hsource.symm.trans hi) (by simp)⟩

end

/-! ### Registered readers -/

/-- `r` is registered with a version of `w` in layer `ci`. -/
def HasReader (s : ShadowDb DB) (ci : CommitIndex) (w r : TxIndex) : Prop :=
  ∃ key, r ∈ (s.layerAt ci).readersAt key w

/-- The call reads at `(ci, r)`, and depends on `w`. -/
def Registers (ci : CommitIndex) (w r : TxIndex) (s : ShadowDb DB) : Call → Prop
  | .storageRef address index =>
    s.currentCommitIndex = ci ∧ s.currentTx = r ∧ s.ReadsFrom (slotKey address index) ci r w
  | _ => False

/-- The call drains, clears or wipes the readers of `w` in layer `ci`. -/
def Drains (ci : CommitIndex) (w : TxIndex) (s : ShadowDb DB) : Call → Prop
  | .abort ci' tx => ci' = ci ∧ tx = w
  | .commit ci' tx _ => ci' = ci ∧ tx = w
  | .cascade base changed => ∃ layer, s.layers.get? ci = some layer ∧ Hit base changed ci layer
  | _ => False

/-- A read is plain; other calls are. -/
def Plain (s : ShadowDb DB) : Call → Prop
  | .storageRef address index => s.ReadsPlainly (slotKey address index) s.currentCommitIndex s.currentTx
  | _ => True

theorem mem_readersAt_recordRead {layers : OrdMap CommitIndex RoundLayer} {key key' : SlotKey}
    {ci c : CommitIndex} {tx r w : TxIndex} {f : Found} (h : layers.contains f.writerCi = true) :
    r ∈ (((recordRead layers key ci tx f).get? c).getD (.new c)).readersAt key' w ↔
      ((c = f.writerCi ∧ key' = key ∧ w = f.writerTx) ∧ r = tx) ∨
        r ∈ ((layers.get? c).getD (.new c)).readersAt key' w := by
  obtain ⟨reads, hreads⟩ := getD_recordRead layers key ci tx f c
  obtain ⟨layer, hlayer⟩ := OrdMap.contains_iff.mp h
  rw [hreads]
  show r ∈ (((layers.modify f.writerCi _).get? c).getD (.new c)).readersAt key' w ↔ _
  rw [OrdMap.get?_modify]
  by_cases hc : c = f.writerCi
  · subst hc
    rw [if_pos rfl, hlayer, Option.map_some, Option.getD_some, Option.getD_some, RoundLayer.readersAt_addReader]
    by_cases hat : key' = key ∧ w = f.writerTx
    · rw [if_pos hat, hat.1, hat.2, List.mem_append, List.mem_singleton, or_comm]
      simp
    · rw [if_neg hat]
      simp [hat]
  · rw [if_neg hc]
    simp [hc]

section
variable {s s' : ShadowDb DB} {ci : CommitIndex} {w r : TxIndex}

theorem hasReader_congr (h : ∀ key, (s'.layerAt ci).readersAt key w = (s.layerAt ci).readersAt key w) :
    s'.HasReader ci w r ↔ s.HasReader ci w r := by
  unfold HasReader
  simp only [h]

theorem not_hasReader (h : ∀ key, (s'.layerAt ci).readersAt key w = []) : ¬ s'.HasReader ci w r := by
  unfold HasReader
  simp [h]

/-- A plain read registers the reader where it depends on it. -/
theorem hasReader_storageRef [DatabaseRef DB] {address : Address} {index : StorageKey}
    (hplain : s.ReadsPlainly (slotKey address index) s.currentCommitIndex s.currentTx) :
    (s.storageRef address index).2.HasReader ci w r ↔
      Registers ci w r s (.storageRef address index) ∨ s.HasReader ci w r := by
  have heq := storageRef_eq s s.currentCommitIndex s.currentTx address index
  have hself : s.setCurrentTx s.currentCommitIndex s.currentTx = s := rfl
  rw [hself] at heq
  rw [heq, Registers]
  cases hsearch : searchStorage s.layers (slotKey address index) s.currentCommitIndex s.currentTx with
  | none =>
    refine ⟨.inr, fun h => h.resolve_left fun hregisters => ?_⟩
    obtain ⟨rfl, rfl, hreads⟩ := hregisters
    exact not_readsFrom hsearch hreads
  | some f =>
    have hown : f.writerCi = s.currentCommitIndex := (readsFrom_iff hsearch hplain (w := w)).1
    have hreads : s.ReadsFrom (slotKey address index) s.currentCommitIndex s.currentTx w ↔ w = f.writerTx :=
      (readsFrom_iff hsearch hplain).2
    have hcontains : s.layers.contains f.writerCi = true := (newest_of_search hsearch).1.contains
    have hreaders : ∀ key,
        r ∈ (((recordRead s.layers (slotKey address index) s.currentCommitIndex s.currentTx f).get? ci).getD
          (.new ci)).readersAt key w ↔
        ((ci = f.writerCi ∧ key = slotKey address index ∧ w = f.writerTx) ∧ r = s.currentTx) ∨
          r ∈ (s.layerAt ci).readersAt key w :=
      fun key => mem_readersAt_recordRead hcontains
    constructor
    · intro h
      obtain ⟨key, hkey⟩ := h
      rcases (hreaders key).mp hkey with ⟨⟨hci, -, hw⟩, hr⟩ | hbefore
      · refine .inl ⟨(hci.trans hown).symm, hr.symm, ?_⟩
        rw [hci, hown, hr]
        exact hreads.mpr hw
      · exact .inr ⟨key, hbefore⟩
    · intro h
      rcases h with ⟨rfl, rfl, hfrom⟩ | ⟨key, hbefore⟩
      · exact ⟨_, (hreaders _).mpr (.inl ⟨⟨hown.symm, rfl, hreads.mp hfrom⟩, rfl⟩)⟩
      · exact ⟨key, (hreaders key).mpr (.inr hbefore)⟩

/-- An abort drains the readers of its own versions. -/
theorem hasReader_abort [DatabaseRef DB] [DatabaseCommit DB] (ci' : CommitIndex) (tx : TxIndex) :
    (s.call (.abort ci' tx)).HasReader ci w r ↔ s.HasReader ci w r ∧ ¬ (ci' = ci ∧ tx = w) := by
  rw [call]
  by_cases hat : ci' = ci ∧ tx = w
  · refine iff_of_false (not_hasReader fun key => ?_) fun h => h.2 hat
    rw [layerAt_abort, if_pos hat.1.symm, RoundLayer.readersAt_aborted, if_pos hat.2.symm]
  · rw [and_iff_left hat]
    refine hasReader_congr fun key => ?_
    rw [layerAt_abort]
    split_ifs with hci
    · rw [RoundLayer.readersAt_aborted, if_neg fun hw => hat ⟨hci.symm, hw.symm⟩, hci]
    · rfl

/-- A re-execution clears the readers of its own versions; where there is no layer there are none. -/
theorem hasReader_commit [DatabaseRef DB] [DatabaseCommit DB] (ci' : CommitIndex) (tx : TxIndex) (state : EvmState) :
    (s.call (.commit ci' tx state)).HasReader ci w r ↔ s.HasReader ci w r ∧ ¬ (ci' = ci ∧ tx = w) := by
  rw [call]
  by_cases hat : ci' = ci ∧ tx = w
  · refine iff_of_false (not_hasReader fun key => ?_) fun h => h.2 hat
    rw [layerAt_commit]
    split_ifs with hci
    · rw [RoundLayer.readersAt_recordState, RoundLayer.readersAt_cleared, if_pos hat.2.symm]
    · have hnone : s.layers.get? ci = none := by
        cases hlayer : s.layers.get? ci with
        | none => rfl
        | some layer => exact absurd ⟨hat.1.symm, OrdMap.contains_iff.mpr ⟨layer, hat.1 ▸ hlayer⟩⟩ hci
      rw [layerAt, hnone]
      rfl
  · rw [and_iff_left hat]
    refine hasReader_congr fun key => ?_
    rw [layerAt_commit]
    split_ifs with hci
    · rw [RoundLayer.readersAt_recordState, RoundLayer.readersAt_cleared,
        if_neg fun hw => hat ⟨hci.1.symm, hw.symm⟩, hci.1]
    · rfl

/-- A cascade wipes the readers of the layers it hits. -/
theorem hasReader_cascade [DatabaseRef DB] [DatabaseCommit DB] (base : CommitIndex) (changed : OrdSet SlotKey) :
    (s.call (.cascade base changed)).HasReader ci w r ↔
      s.HasReader ci w r ∧ ¬ ∃ layer, s.layers.get? ci = some layer ∧ Hit base changed ci layer := by
  have hlayer : (s.call (.cascade base changed)).layerAt ci = ((s.layers.get? ci).map fun layer =>
      if Hit base changed ci layer then layer.emptied else layer).getD (.new ci) := by
    rw [call, layerAt, get?_cascade]
  cases hget : s.layers.get? ci with
  | none =>
    rw [hget] at hlayer
    simp only [reduceCtorEq, false_and, exists_false, not_false_eq_true, and_true]
    exact hasReader_congr fun key => by rw [hlayer, layerAt, hget]; rfl
  | some layer =>
    rw [hget, Option.map_some, Option.getD_some] at hlayer
    by_cases hhit : Hit base changed ci layer
    · refine iff_of_false (not_hasReader fun key => ?_) fun h => h.2 ⟨layer, rfl, hhit⟩
      rw [hlayer, if_pos hhit]
      rfl
    · rw [if_neg hhit] at hlayer
      have hnot : ¬ ∃ layer', some layer = some layer' ∧ Hit base changed ci layer' := by
        rintro ⟨layer', hsome, hhit'⟩
        exact hhit (Option.some.inj hsome ▸ hhit')
      rw [and_iff_left hnot]
      exact hasReader_congr fun key => by rw [hlayer, layerAt, hget]; rfl

/-- A finalization drops the layers up to its round, and changes none of the others. -/
theorem hasReader_finalize [DatabaseRef DB] [DatabaseCommit DB] {ci' : CommitIndex} {diff : EvmState}
    (hopen : ∀ prev, (s.call (.finalize ci' diff)).lastFinalized = some prev → prev < ci) :
    (s.call (.finalize ci' diff)).HasReader ci w r ↔ s.HasReader ci w r := by
  refine hasReader_congr fun key => ?_
  rw [call, finalizeCommit_eq] at hopen ⊢
  by_cases hci : ci' = s.nextFinalized
  · rw [if_pos hci] at hopen ⊢
    have hlt : ci' < ci := hopen ci' rfl
    show ((s.finalized ci' diff).layerAt ci).readersAt key w = _
    rw [layerAt, finalized, OrdMap.get?_retain, if_pos (by simpa using hlt)]
    rfl
  · rw [if_neg hci]

/-- **What a call does to the readers** of a version, if it leaves the layer. -/
theorem hasReader_call [DatabaseRef DB] [DatabaseCommit DB] {c : Call} (hplain : s.Plain c)
    (hopen : ∀ prev, (s.call c).lastFinalized = some prev → prev < ci) :
    (s.call c).HasReader ci w r ↔ Registers ci w r s c ∨ s.HasReader ci w r ∧ ¬ Drains ci w s c := by
  cases c with
  | storageRef address index =>
    simp only [Drains, not_false_eq_true, and_true]
    exact hasReader_storageRef hplain
  | setCurrentTx | basicRef | validate =>
    simp only [Registers, Drains, not_false_eq_true, and_true, false_or]
    exact hasReader_congr fun key => rfl
  | ensureLayer ci' =>
    simp only [Registers, Drains, not_false_eq_true, and_true, false_or]
    exact hasReader_congr fun key => by rw [call, layerAt_ensureLayer]
  | record ci' tx state =>
    simp only [Registers, Drains, not_false_eq_true, and_true, false_or]
    refine hasReader_congr fun key => ?_
    rw [call, layerAt_record]
    split_ifs with hci
    · rw [RoundLayer.readersAt_recordState, hci]
    · rfl
  | abort ci' tx =>
    simp only [Registers, Drains, false_or]
    exact hasReader_abort ci' tx
  | commit ci' tx state =>
    simp only [Registers, Drains, false_or]
    exact hasReader_commit ci' tx state
  | cascade base changed =>
    simp only [Registers, Drains, false_or]
    exact hasReader_cascade base changed
  | stage ci' finalTxOrder =>
    simp only [Registers, Drains, not_false_eq_true, and_true, false_or]
    refine hasReader_congr fun key => ?_
    rcases getD_modify s.layers (fun layer => { layer with status := .pendingCommit }) ci' ci with heq | heq
    · exact congrArg (·.readersAt key w) heq
    · exact congrArg (·.readersAt key w) heq
  | finalize ci' diff =>
    simp only [Registers, Drains, not_false_eq_true, and_true, false_or]
    exact hasReader_finalize hopen

/-! ### Histories -/

/-- Rounds stay finalised. -/
theorem lastFinalized_call [DatabaseRef DB] [DatabaseCommit DB] {c : Call}
    (hopen : ∀ prev, (s.call c).lastFinalized = some prev → prev < ci) :
    ∀ prev, s.lastFinalized = some prev → prev < ci := by
  intro prev hprev
  cases hc : s.finalizes c with
  | none =>
    obtain ⟨-, hlast, -⟩ := call_of_finalizes_none hc
    exact hopen prev (hlast.trans hprev)
  | some e =>
    obtain ⟨hnext, hcall⟩ := finalizes_eq_some hc
    have hlt : e.1 < ci := hopen e.1 (by rw [hcall]; rfl)
    rw [nextFinalized, hprev] at hnext
    have hsucc : prev + 1 < ci := (show e.1 = prev + 1 from hnext) ▸ hlt
    exact (Nat.lt_succ_self prev).trans hsucc

end

/-- **The readers after a history** are those registered since they were last drained. -/
theorem hasReader_calls [DatabaseRef DB] [DatabaseCommit DB] (canonical : DB) (coinbase : Address)
    {ci : CommitIndex} {w r : TxIndex} {history : List Call}
    (hplain : Along call Plain (new canonical coinbase) history)
    (hopen : ∀ prev, ((new canonical coinbase).calls history).lastFinalized = some prev → prev < ci) :
    ((new canonical coinbase).calls history).HasReader ci w r ↔
      Since call (Registers ci w r) (Drains ci w) (new canonical coinbase) history := by
  induction history using List.reverseRecOn with
  | nil =>
    refine iff_of_false (fun h => ?_) not_since_nil
    obtain ⟨key, hkey⟩ := h
    cases hkey
  | append_singleton history c ih =>
    have hcalls : (new canonical coinbase).calls (history ++ [c]) = ((new canonical coinbase).calls history).call c :=
      List.foldl_concat ..
    obtain ⟨hbefore, hc, -⟩ := along_append.mp hplain
    have hlast : ((new canonical coinbase).calls history).Plain c := hc
    rw [hcalls] at hopen ⊢
    rw [hasReader_call hlast hopen, ih hbefore (lastFinalized_call hopen), since_concat]
    rfl

theorem pairwise_sortedDedup (l : List TxIndex) : ((l.insertionSort (· ≤ ·)).destutter (· ≠ ·)).Pairwise (· < ·) := by
  have hsorted := List.pairwise_insertionSort (· ≤ ·) l
  rw [hsorted.destutter_eq_dedup]
  have hle : (l.insertionSort (· ≤ ·)).dedup.Pairwise (· ≤ ·) := hsorted.sublist (List.dedup_sublist _)
  have hne : (l.insertionSort (· ≤ ·)).dedup.Pairwise (· ≠ ·) := List.nodup_dedup _
  exact (hle.and hne).imp fun h => lt_of_le_of_ne h.1 h.2

/-- **Whom an abort notifies.** In every history whose reads are plain, an abort of a transaction of
a round that is not finalised returns, in ascending order and once each, the transactions of the
round that read at their position since the readers were last drained, cleared or wiped, and
depended on the aborted one. -/
theorem abort_notifies [DatabaseRef DB] [DatabaseCommit DB] (canonical : DB) (coinbase : Address)
    (history : List Call) (hplain : Along call Plain (new canonical coinbase) history) (done : List Call)
    (hdone : done <+: history) (ci : CommitIndex) (w : TxIndex)
    (hopen : ∀ prev, ((new canonical coinbase).calls done).lastFinalized = some prev → prev < ci) :
    let notified := (((new canonical coinbase).calls done).abortTx ci w).1
    notified.Pairwise (· < ·) ∧
      ∀ r, r ∈ notified ↔ Since call (Registers ci w r) (Drains ci w) (new canonical coinbase) done := by
  intro notified
  constructor
  · show (((new canonical coinbase).calls done).abortTx ci w).1.Pairwise (· < ·)
    unfold abortTx
    cases ((new canonical coinbase).calls done).layers.get? ci with
    | none => exact .nil
    | some layer => exact pairwise_sortedDedup _
  · intro r
    obtain ⟨rest, rfl⟩ := hdone
    exact mem_abortTx.trans (hasReader_calls canonical coinbase (along_append.mp hplain).1 hopen)

/-- TX 0 of round 1 writes, and TX 1 of the round reads. -/
def readInRound : List Call := [.record 1 0 (changeSlot 9 5), .setCurrentTx 1 1, .storageRef 0 0]

/-- TX 0 of round 1 writes, and TX 3 of round 2 reads. -/
def readFromRoundTwo : List Call := [.record 1 0 (changeSlot 9 5), .setCurrentTx 2 3, .storageRef 0 0]

/-- TX 0 and TX 1 of round 1 write, TX 1 is aborted, and TX 2 reads what TX 0 wrote. -/
def readUnderPending : List Call :=
  [.record 1 0 (changeSlot 9 5), .record 1 1 (changeSlot 5 7), .abort 1 1, .setCurrentTx 1 2, .storageRef 0 0]

/-- The reader of the round is notified. -/
theorem abort_notifies_reader : Along call Plain (new nineInSlot 1) readInRound ∧
    (((new nineInSlot 1).calls readInRound).abortTx 1 0).1 = [1] ∧
      Since call (Registers 1 0 1) (Drains 1 0) (new nineInSlot 1) readInRound := by
  have hplain : Along call Plain (new nineInSlot 1) readInRound := by
    refine ⟨trivial, trivial, fun c hc => ⟨?_, fun hover => ?_⟩, trivial⟩
    · have hkeys : ∀ c ∈ (((new nineInSlot 1).calls (readInRound.take 2)).layers).keys, c = 1 := by decide +kernel
      exact hkeys c (OrdMap.contains_iff_mem_keys.mp hc.1.contains)
    · -- the only version below TX 1 is data
      obtain ⟨i, hi, hpending, -⟩ := hover
      obtain rfl : i = 0 := Nat.lt_one_iff.mp (hi rfl)
      have hdata : ((new nineInSlot 1).calls (readInRound.take 2)).version 1 0 (slotKey 0 0) = some (.data 5) := by
        decide +kernel
      cases hdata.symm.trans hpending
  have hnotified : (((new nineInSlot 1).calls readInRound).abortTx 1 0).1 = [1] := by decide +kernel
  have hopen : ((new nineInSlot 1).calls readInRound).lastFinalized = none := by decide +kernel
  refine ⟨hplain, hnotified, ?_⟩
  obtain ⟨-, hall⟩ := abort_notifies nineInSlot 1 readInRound hplain readInRound (List.prefix_refl _) 1 0
    (fun prev hprev => by rw [hopen] at hprev; cases hprev)
  exact (hall 1).mp (by rw [hnotified]; exact List.mem_singleton_self 1)

/-- A reader of another round is notified under its bare index, and the reader that fell back to
the version of the aborted transaction is not. -/
theorem wrong_readers_notified :
    (3 ∈ (((new nineInSlot 1).calls readFromRoundTwo).abortTx 1 0).1 ∧
      ¬ Since call (Registers 1 0 3) (Drains 1 0) (new nineInSlot 1) readFromRoundTwo) ∧
    (2 ∉ (((new nineInSlot 1).calls readUnderPending).abortTx 1 0).1 ∧
      Since call (Registers 1 0 2) (Drains 1 0) (new nineInSlot 1) readUnderPending) := by
  refine ⟨⟨by decide +kernel, fun h => ?_⟩, by decide +kernel, ?_⟩
  · -- the only read of the history is not at a position of round 1
    have hsplit : readFromRoundTwo = readFromRoundTwo.take 2 ++ [.storageRef 0 0] := rfl
    rw [hsplit, since_concat] at h
    rcases h with ⟨hci, -⟩ | ⟨h, -⟩
    · exact absurd hci (by decide +kernel)
    · obtain ⟨before, i, after, heq, hset, -⟩ := h
      have hmem : i ∈ readFromRoundTwo.take 2 := heq ▸ List.mem_append_right _ (List.mem_cons_self ..)
      rcases List.mem_pair.mp hmem with rfl | rfl
      · exact hset
      · exact hset
  · have hsplit : readUnderPending = readUnderPending.take 4 ++ [.storageRef 0 0] := rfl
    rw [hsplit, since_concat]
    exact .inl ⟨by decide +kernel, by decide +kernel, .inl (by decide +kernel)⟩

end ShadowDb

end DualOptimistic.Shadow
