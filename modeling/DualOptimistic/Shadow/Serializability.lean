import DualOptimistic.Shadow.Execution
import DualOptimistic.Shadow.Validation

/-! Transactions of one round in parallel.

The transactions of a round run in any interleaving of their reads and records; a transaction
sees what those below it have recorded so far. If the records were careful of the reads that no
one remembers, those of canonical values and of accounts, then a round that validates has run
as if one transaction had come after another (`validated_serial`). -/
namespace DualOptimistic.Shadow
open Data

namespace ShadowDb
variable {DB : Type}

/-! ### The machine -/

/-- A transaction of the round: what is left of it, or what it left. -/
inductive Task where
  | running (code : Transaction)
  | finished (state : EvmState)

namespace Task

def rest : Task → Transaction
  | running code => code
  | finished state => .done state

/-- What it has recorded. -/
def write (coinbase : Address) (l : Location) : Task → Option l.Value
  | running _ => none
  | finished state => stateWrite coinbase state l

end Task

/-- The database, the tasks, and what the last read of each location by each task returned. -/
structure Parallel (DB : Type) where
  db : ShadowDb DB
  tasks : TxIndex → Option Task
  lastRead : TxIndex → (l : Location) → Option l.Value

namespace Parallel

/-- The round with its layer, and nothing done. -/
def start (canonical : DB) (coinbase : Address) (ci : CommitIndex) (codes : List Transaction) : Parallel DB where
  db := (new canonical coinbase).ensureLayer ci
  tasks := fun k => (codes[k]?).map .running
  lastRead := fun _ _ => none

/-- The round as a history of reads of slots and records. -/
def history (s : Parallel DB) : History DB where
  db := s.db
  lastRead := fun k key => s.lastRead k (.storage (ofLex key).1 (ofLex key).2)

/-- A record writes no account that a later transaction has read, unless one between has
written it or what it writes is what was read. -/
def CarefulAccounts (ci : CommitIndex) (s : Parallel DB) (tx : TxIndex) (state : EvmState) : Prop :=
  ∀ address info, accountWrite s.db.coinbase state address = some info → ∀ k, tx < k →
    s.lastRead k (.basic address) ≠ none →
    (∃ i, tx < i ∧ i < k ∧ s.db.accountVersion ci i address ≠ none) ∨
      s.lastRead k (.basic address) = some (.ok (some info))

variable [DatabaseRef DB]

/-- A turn is careful if it records nothing, or is careful of the slots and the accounts read. -/
def Careful (ci : CommitIndex) (s : Parallel DB) (tx : TxIndex) : Prop :=
  ∀ state, s.tasks tx = some (.running (.done state)) →
    s.history.Careful ci (.record tx state) ∧ s.CarefulAccounts ci tx state

/-- A turn of transaction `tx`: it reads at its position, or records what it leaves. -/
def step (ci : CommitIndex) (s : Parallel DB) (tx : TxIndex) : Parallel DB :=
  match s.tasks tx with
  | some (.running (.read l next)) =>
    let result := (s.db.setCurrentTx ci tx).fetch l
    { db := result.2
      tasks := Function.update s.tasks tx (some (.running (next result.1)))
      lastRead := fun k => if k = tx then Function.update (s.lastRead k) l (some result.1) else s.lastRead k }
  | some (.running (.done state)) =>
    { s with
      db := s.db.recordTxExecution ci tx state
      tasks := Function.update s.tasks tx (some (.finished state)) }
  | some (.finished _) => s
  | none => s

/-- The round after turns, one at a time. -/
def run (ci : CommitIndex) (s : Parallel DB) (schedule : List TxIndex) : Parallel DB := schedule.foldl (step ci) s

/-- What careful turns keep: the reads of slots are tracked, those of accounts stand, every task
has come where its reads have led it, and only what is finished is written. -/
structure Sound (ci : CommitIndex) (canonical : DB) (coinbase : Address) (codes : List Transaction)
    (s : Parallel DB) : Prop where
  canonical_eq : s.db.canonical = canonical
  coinbase_eq : s.db.coinbase = coinbase
  tracked : ∃ layer, s.history.Tracked ci layer
  data : s.db.AllData
  accounts : ∀ k address v, s.lastRead k (.basic address) = some v → s.db.view ci k (.basic address) = v
  tasks : ∀ k, (s.tasks k).isSome = (codes[k]?).isSome
  reached : ∀ k code task, codes[k]? = some code → s.tasks k = some task → ∃ seen past,
    code.Reached seen past task.rest ∧ ∀ l ∈ past, s.lastRead k l = some (seen l)
  written : ∀ l p, s.db.written l p =
    if (ofLex p).1 = ci then (s.tasks (ofLex p).2).bind (Task.write coinbase l) else none

variable {canonical : DB} {coinbase : Address} {ci : CommitIndex} {codes : List Transaction} {s : Parallel DB}
  {tx : TxIndex}

theorem sound_start (canonical : DB) (coinbase : Address) (ci : CommitIndex) (codes : List Transaction) :
    (start canonical coinbase ci codes).Sound ci canonical coinbase codes where
  canonical_eq := rfl
  coinbase_eq := rfl
  tracked := ⟨_, History.tracked_start canonical coinbase ci⟩
  data := by
    intro c i key v hv
    rw [version_eq, start, layerAt_ensureLayer] at hv
    cases hv
  accounts := by
    intro k address v hv
    cases hv
  tasks := by
    intro k
    rw [start, Option.isSome_map]
  reached := by
    intro k code task hcode htask
    have htask : (codes[k]?).map Task.running = some task := htask
    rw [hcode] at htask
    obtain rfl := Option.some.inj htask
    refine ⟨canonicalStore canonical, [], code.reached_self _, fun l hl => ?_⟩
    cases hl
  written := by
    intro l p
    have hnone : ((new canonical coinbase).ensureLayer ci).written l p = none := by
      cases l with
      | storage address index =>
        simp only [ShadowDb.written, version_eq, layerAt_ensureLayer]
        rfl
      | basic address =>
        simp only [ShadowDb.written, accountVersion_eq, layerAt_ensureLayer]
        rfl
    have hwrite : ((codes[(ofLex p).2]?).map Task.running).bind (Task.write coinbase l) = none := by
      cases codes[(ofLex p).2]? with
      | none => rfl
      | some code => rfl
    show ((new canonical coinbase).ensureLayer ci).written l p = _
    rw [hnone, start, hwrite, ite_self]

/-- The turn of a transaction that reads. -/
structure Fetches (ci : CommitIndex) (tx : TxIndex) (l : Location) (next : l.Value → Transaction)
    (s s' : Parallel DB) : Prop where
  db : s'.db = ((s.db.setCurrentTx ci tx).fetch l).2
  task : s'.tasks tx = some (.running (next (s.db.view ci tx l)))
  tasks : ∀ k, k ≠ tx → s'.tasks k = s.tasks k
  read : s'.lastRead tx l = some (s.db.view ci tx l)
  reads : ∀ k l', ¬ (k = tx ∧ l' = l) → s'.lastRead k l' = s.lastRead k l'

theorem fetches {l : Location} {next : l.Value → Transaction}
    (htask : s.tasks tx = some (.running (.read l next))) : Fetches ci tx l next s (s.step ci tx) := by
  rw [step, htask]
  refine ⟨rfl, Function.update_self .., fun k hk => Function.update_of_ne hk .., ?_, fun k l' hother => ?_⟩
  · simp only [if_true, Function.update_self]
    rfl
  · by_cases hk : k = tx
    · simp only [hk, if_true]
      exact Function.update_of_ne (fun heq => hother ⟨hk, heq⟩) ..
    · simp only [hk, if_false]

/-- The reads of slots stay tracked. -/
theorem Fetches.tracked {s' : Parallel DB} {l : Location} {next : l.Value → Transaction}
    (h : Fetches ci tx l next s s') {layer : RoundLayer} (ht : s.history.Tracked ci layer) :
    ∃ layer', s'.history.Tracked ci layer' := by
  cases l with
  | storage address index =>
    obtain ⟨layer', ht'⟩ := @History.Tracked.step _ _ _ _ _ ht (.read tx address index) trivial
    refine ⟨layer', ?_⟩
    have hstep : s'.history = s.history.step ci (.read tx address index) := by
      rw [history, h.db, History.step]
      refine congrArg (History.mk _) (funext fun k => funext fun key => ?_)
      by_cases hat : k = tx ∧ key = slotKey address index
      · rw [if_pos hat, hat.1, hat.2]
        exact h.read
      · rw [if_neg hat]
        refine h.reads k _ fun heq => hat ⟨heq.1, ?_⟩
        obtain ⟨haddress, hindex⟩ := Location.storage.inj heq.2
        exact congrArg toLex (Prod.ext haddress hindex)
    rwa [hstep]
  | basic address =>
    refine ⟨layer, ?_⟩
    have hstep : s'.history = ⟨s.db.setCurrentTx ci tx, s.history.lastRead⟩ := by
      rw [history, h.db]
      refine congrArg (History.mk _) (funext fun k => funext fun key => ?_)
      exact h.reads k _ fun heq => by cases heq.2
    rw [hstep]
    exact ⟨⟨ht.oneRound.only, ht.oneRound.data⟩, ht.mem, ht.canonical⟩

/-- **A read** at the position of its transaction. -/
theorem Sound.read (h : s.Sound ci canonical coinbase codes) (honce : ∀ code ∈ codes, ∀ store, (code.reads store).Nodup)
    {l : Location} {next : l.Value → Transaction} (htask : s.tasks tx = some (.running (.read l next))) :
    (s.step ci tx).Sound ci canonical coinbase codes := by
  have hstep := @fetches _ _ ci _ _ _ _ htask
  have hreads : AfterReads (s.db.setCurrentTx ci tx) (s.step ci tx).db := hstep.db ▸ afterReads_fetch _ l
  have hview : ∀ k, (s.step ci tx).db.view ci k = s.db.view ci k := fun k => hreads.view h.data ci k
  refine ⟨hreads.canonical.trans h.canonical_eq, ?_, ?_, hreads.allData h.data, fun k address v hv => ?_,
    fun k => ?_, fun k code task hcode hk => ?_, fun l' p => ?_⟩
  · obtain ⟨layers, hrest⟩ := hreads.rest
    rw [hrest]
    exact h.coinbase_eq
  · obtain ⟨layer, ht⟩ := h.tracked
    exact hstep.tracked ht
  · rw [hview]
    by_cases hat : k = tx ∧ Location.basic address = l
    · obtain ⟨rfl, rfl⟩ := hat
      exact Option.some.inj (hstep.read.symm.trans hv)
    · rw [hstep.reads k _ hat] at hv
      exact h.accounts k address v hv
  · by_cases hk : k = tx
    · rw [hk, hstep.task, ← h.tasks, htask]
      rfl
    · rw [hstep.tasks k hk]
      exact h.tasks k
  · by_cases hother : k = tx
    · -- the location has not been read before, so the reads so far still stand for what was seen
      subst hother
      obtain rfl := Option.some.inj (hstep.task.symm.trans hk)
      obtain ⟨seen, past, hreached, hseen⟩ := h.reached k code _ hcode htask
      have hnew : l ∉ past := hreached.not_mem (honce code (List.mem_of_getElem? hcode))
      refine ⟨_, _, hreached.read hnew (s.db.view ci k l), fun l' hl' => ?_⟩
      rcases List.mem_append.mp hl' with hpast | hlast
      · have hne : l' ≠ l := fun heq => hnew (heq ▸ hpast)
        rw [hstep.reads k l' fun hat => hne hat.2, Function.update_of_ne hne]
        exact hseen l' hpast
      · obtain rfl := List.mem_singleton.mp hlast
        rw [hstep.read, Function.update_self]
    · rw [hstep.tasks k hother] at hk
      obtain ⟨seen, past, hreached, hseen⟩ := h.reached k code task hcode hk
      refine ⟨seen, past, hreached, fun l' hl' => ?_⟩
      rw [hstep.reads k l' fun hat => hother hat.1]
      exact hseen l' hl'
  · rw [hreads.written l']
    refine (h.written l' p).trans ?_
    by_cases hp : (ofLex p).2 = tx
    · rw [hp, htask, hstep.task]
      rfl
    · rw [hstep.tasks _ hp]

/-- The accounts read stand after a record that is careful of them. -/
theorem Sound.accounts_record (h : s.Sound ci canonical coinbase codes) {state : EvmState}
    (hcareful : s.CarefulAccounts ci tx state)
    {k : TxIndex} {address : Address} {v : Except String (Option AccountInfo)}
    (hv : s.lastRead k (.basic address) = some v) :
    (s.db.recordTxExecution ci tx state).view ci k (.basic address) = v := by
  have hbefore := h.accounts k address v hv
  obtain ⟨old, hold⟩ := exists_lastSeen h.data ci k (.basic address)
  have hsame : LastSeen (Sees ci k) ((s.db.recordTxExecution ci tx state).written (.basic address)) old →
      (s.db.recordTxExecution ci tx state).view ci k (.basic address) = v := by
    intro hnew
    rw [← hbefore, view_eq h.data hold, view_eq (h.data.record ci tx state) hnew]
    rfl
  have hwritten := s.db.written_record ci tx state (.basic address)
  by_cases hlt : tx < k
  · cases hwrite : accountWrite s.db.coinbase state address with
    | none =>
      refine hsame (hold.congr fun p _ => ?_)
      rw [hwritten, stateWrite, hwrite]
      exact ite_self _
    | some info =>
      have hread : s.lastRead k (.basic address) ≠ none := fun hnone => by
        rw [hnone] at hv
        cases hv
      by_cases hbetween : ∃ i, tx < i ∧ i < k ∧ s.db.accountVersion ci i address ≠ none
      · -- the transaction between hides the write
        obtain ⟨i, hi, hik, hversion⟩ := hbetween
        refine hsame (@LastSeen.hidden _ _ _ _ _ _ _ hold (toLex (ci, i)) (fun _ => hik) ?_ fun p hp => ?_)
        · rw [ShadowDb.written, Option.isSome_map]
          exact Option.isSome_iff_ne_none.mpr hversion
        · rw [hwritten, if_neg]
          rintro rfl
          exact hp (position_lt.mpr (.inr ⟨rfl, hi⟩))
      · -- no one does: what is written is what was read
        rcases hcareful address info hwrite k hlt hread with hhides | hequal
        · exact absurd hhides hbetween
        · have hnew : LastSeen (Sees ci k) ((s.db.recordTxExecution ci tx state).written (.basic address))
              (some (.ok (some info))) := by
            refine @LastSeen.some _ _ _ _ _ (toLex (ci, tx)) _ (fun _ => hlt) ?_ fun q hq hsees => ?_
            · rw [hwritten, if_pos rfl, stateWrite, hwrite]
              rfl
            · rw [hwritten, if_neg hq.ne']
              by_cases hround : (ofLex q).1 = ci
              · have hlater : tx < (ofLex q).2 := by
                  rcases position_lt.mp hq with hlt | ⟨-, hlt⟩
                  · exact absurd hround hlt.ne'
                  · exact hlt
                have hnone : s.db.accountVersion (ofLex q).1 (ofLex q).2 address = none := by
                  by_contra hne
                  exact hbetween ⟨_, hlater, hsees (beq_iff_eq.mpr hround), hround ▸ hne⟩
                simp only [ShadowDb.written, hnone, Option.map_none]
              · rw [h.written, if_neg hround]
          rw [view_eq (h.data.record ci tx state) hnew]
          exact Option.some.inj (hequal.symm.trans hv)
  · refine hsame (hold.congr fun p hp => ?_)
    rw [hwritten, if_neg]
    rintro rfl
    exact hlt (hp (beq_self_eq_true ci))

/-- **A record** that is careful. -/
theorem Sound.record (h : s.Sound ci canonical coinbase codes) {state : EvmState}
    (htask : s.tasks tx = some (.running (.done state))) (hcareful : s.Careful ci tx) :
    (s.step ci tx).Sound ci canonical coinbase codes := by
  obtain ⟨hslots, haccounts⟩ := hcareful state htask
  have hstep : s.step ci tx = { s with
      db := s.db.recordTxExecution ci tx state
      tasks := Function.update s.tasks tx (some (.finished state)) } := by
    rw [step, htask]
  have hself : (s.step ci tx).tasks tx = some (.finished state) := by
    rw [hstep]
    exact Function.update_self ..
  have hother : ∀ k, k ≠ tx → (s.step ci tx).tasks k = s.tasks k := by
    intro k hk
    rw [hstep]
    exact Function.update_of_ne hk ..
  have hdb : (s.step ci tx).db = s.db.recordTxExecution ci tx state := by rw [hstep]
  have hlast : (s.step ci tx).lastRead = s.lastRead := by rw [hstep]
  refine ⟨?_, ?_, ?_, ?_, fun k address v hv => ?_, fun k => ?_, fun k code task hcode hk => ?_, fun l p => ?_⟩
  · rw [hdb]
    exact h.canonical_eq
  · rw [hdb]
    exact h.coinbase_eq
  · obtain ⟨layer, ht⟩ := h.tracked
    obtain ⟨layer', ht'⟩ := ht.step hslots
    refine ⟨layer', ?_⟩
    rw [hstep]
    exact ht'
  · rw [hdb]
    exact h.data.record ci tx state
  · rw [hlast] at hv
    rw [hdb]
    exact h.accounts_record haccounts hv
  · by_cases hk : k = tx
    · rw [hk, hself, ← h.tasks, htask]
      rfl
    · rw [hother k hk]
      exact h.tasks k
  · rw [hlast]
    by_cases hkx : k = tx
    · subst hkx
      obtain rfl := Option.some.inj (hself.symm.trans hk)
      obtain ⟨seen, past, hreached, hseen⟩ := h.reached k code _ hcode htask
      exact ⟨seen, past, hreached, hseen⟩
    · rw [hother k hkx] at hk
      exact h.reached k code task hcode hk
  · rw [hdb, written_record, h.coinbase_eq, h.written]
    by_cases hp : p = toLex (ci, tx)
    · subst hp
      simp only [ofLex_toLex, if_true, htask, hself, Option.bind_some, Task.write, Option.or_none]
    · rw [if_neg hp]
      by_cases hround : (ofLex p).1 = ci
      · have htx : (ofLex p).2 ≠ tx := fun htx => hp (congrArg toLex (Prod.ext hround htx))
        rw [hother _ htx]
      · rw [if_neg hround, if_neg hround]

theorem Sound.step (h : s.Sound ci canonical coinbase codes) (honce : ∀ code ∈ codes, ∀ store, (code.reads store).Nodup)
    (hcareful : s.Careful ci tx) : (s.step ci tx).Sound ci canonical coinbase codes := by
  cases htask : s.tasks tx with
  | none => rwa [Parallel.step, htask]
  | some task =>
    cases task with
    | finished state => rwa [Parallel.step, htask]
    | running code =>
      cases code with
      | done state => exact h.record htask hcareful
      | read l next => exact h.read honce htask

/-! ### A validated round is serial -/

theorem Sound.tasks_none (h : s.Sound ci canonical coinbase codes) {k : TxIndex} (hk : codes.length ≤ k) :
    s.tasks k = none := by
  have hnone := h.tasks k
  rw [List.getElem?_eq_none hk] at hnone
  exact Option.not_isSome_iff_eq_none.mp (by rw [hnone]; decide)

/-- The states of a round in which all is finished. -/
theorem Sound.exists_states (h : s.Sound ci canonical coinbase codes)
    (hfinished : ∀ k code, s.tasks k ≠ some (.running code)) :
    ∃ states : List EvmState, states.length = codes.length ∧ ∀ k, s.tasks k = (states[k]?).map .finished := by
  have hstate : ∀ k : Fin codes.length, ∃ state, s.tasks k = some (.finished state) := by
    intro k
    have hsome : (s.tasks k).isSome := by rw [h.tasks]; simp
    obtain ⟨task, htask⟩ := Option.isSome_iff_exists.mp hsome
    cases task with
    | running code => exact absurd htask (hfinished k code)
    | finished state => exact ⟨state, htask⟩
  choose state hstate using hstate
  refine ⟨List.ofFn state, List.length_ofFn, fun k => ?_⟩
  rw [List.getElem?_ofFn]
  split_ifs with hk
  · exact hstate ⟨k, hk⟩
  · exact h.tasks_none (Nat.not_lt.mp hk)

/-- Only the round has writes, and only below its length. -/
theorem Sound.round_eq (h : s.Sound ci canonical coinbase codes) {l : Location} {p : Position}
    (hp : (s.db.written l p).isSome) : (ofLex p).1 = ci ∧ (ofLex p).2 < codes.length := by
  rw [h.written] at hp
  split_ifs at hp with hround
  · refine ⟨hround, ?_⟩
    by_contra hlt
    rw [h.tasks_none (Nat.not_lt.mp hlt)] at hp
    cases hp
  · cases hp

/-- What is read below a transaction is what the states of those below it leave. -/
theorem Sound.lastSeen_take (h : s.Sound ci canonical coinbase codes) {states : List EvmState}
    (hstates : ∀ k, s.tasks k = (states[k]?).map .finished) (l : Location) (k : TxIndex) :
    ∃ result, LastSeen (fun p : Position => (ofLex p).1 = ci ∧ (ofLex p).2 < k) (s.db.written l) result ∧
      result.getD (canonicalStore canonical l) =
        Program.storeAfter (stateWrite coinbase) (canonicalStore canonical) (states.take k) l := by
  induction k with
  | zero => exact ⟨none, LastSeen.none fun p hp => absurd hp.2 (Nat.not_lt_zero _), rfl⟩
  | succ k ih =>
    obtain ⟨result, hlast, hvalue⟩ := ih
    have htop : s.db.written l (toLex (ci, k)) = (states[k]?).bind fun state => stateWrite coinbase state l := by
      rw [h.written, ofLex_toLex, if_pos rfl, hstates]
      cases states[k]? with
      | none => rfl
      | some state => rfl
    refine ⟨(s.db.written l (toLex (ci, k))).or result, hlast.extend (fun p hp => ?_) (fun p => ?_), ?_⟩
    · exact position_lt.mpr (.inr ⟨hp.1, hp.2⟩)
    · rw [Nat.lt_succ_iff_lt_or_eq, and_or_left]
      refine or_congr_right ⟨fun hp => congrArg toLex (Prod.ext hp.1 hp.2), ?_⟩
      rintro rfl
      exact ⟨rfl, rfl⟩
    · rw [htop]
      cases hstate : states[k]? with
      | none =>
        rw [List.take_of_length_le (by have := List.getElem?_eq_none_iff.mp hstate; omega)]
        rw [List.take_of_length_le (List.getElem?_eq_none_iff.mp hstate)] at hvalue
        exact hvalue
      | some state =>
        rw [List.take_add_one, hstate, Option.toList_some, Program.storeAfter_concat,
          Program.overwrite, ← hvalue, Option.bind_some]
        cases stateWrite coinbase state l with
        | none => rfl
        | some value => rfl

/-- **A validated round is serial.** The transactions of a round, none of which reads a location
twice, run in any interleaving with careful records. If all have finished and the round
validates, then each left what it leaves when they run one after another on a plain store, and
later rounds read that store. -/
theorem validated_serial (canonical : DB) (coinbase : Address) (ci : CommitIndex) (codes : List Transaction)
    (honce : ∀ code ∈ codes, ∀ store, (code.reads store).Nodup) (schedule : List TxIndex)
    (hcareful : Along (step ci) (Careful ci) (start canonical coinbase ci codes) schedule) :
    let s := (start canonical coinbase ci codes).run ci schedule
    let states := Program.serial (stateWrite coinbase) (canonicalStore canonical) codes
    s.db.validateRound ci = [] → (∀ k code, s.tasks k ≠ some (.running code)) →
      (∀ k, s.tasks k = (states[k]?).map .finished) ∧
        ∀ c tx, ci < c →
          s.db.view c tx = Program.storeAfter (stateWrite coinbase) (canonicalStore canonical) states := by
  intro s serial hvalid hfinished
  have hsound : s.Sound ci canonical coinbase codes :=
    hcareful.keeps (fun _ _ hs hc => hs.step honce hc) (sound_start canonical coinbase ci codes) schedule
      (List.prefix_refl _)
  obtain ⟨states, hlength, hstates⟩ := hsound.exists_states hfinished
  have hview : ∀ k l, s.db.view ci k l =
      Program.storeAfter (stateWrite coinbase) (canonicalStore canonical) (states.take k) l := by
    intro k l
    obtain ⟨result, hlast, hvalue⟩ := hsound.lastSeen_take hstates l k
    rw [← hvalue, ← hsound.canonical_eq]
    refine view_eq hsound.data (hlast.sees_congr fun p hp => ?_)
    have hround := (hsound.round_eq hp).1
    exact ⟨fun hsees => ⟨hround, hsees (beq_iff_eq.mpr hround)⟩, fun hlow _ => hlow.2⟩
  have hserial : states = serial := by
    refine Program.serial_of_consistent hlength fun k code hcode => ?_
    have htask := hstates k
    rw [List.getElem?_eq_getElem (hlength ▸ (List.getElem?_eq_some_iff.mp hcode).1), Option.map_some] at htask
    obtain ⟨seen, past, hreached, hseen⟩ := hsound.reached k code _ hcode htask
    obtain ⟨hreads, heval⟩ := hreached seen fun _ _ => rfl
    refine ⟨seen, ?_, fun l hl => ?_⟩
    · rw [heval, List.getElem?_eq_getElem (hlength ▸ (List.getElem?_eq_some_iff.mp hcode).1)]
      rfl
    · -- what was read is what is read now, at the position of the transaction
      rw [← hview k l]
      have hmem : l ∈ past := by
        rw [hreads] at hl
        simpa [Program.reads, Task.rest] using hl
      have hlast := hseen l hmem
      cases l with
      | basic address => exact (hsound.accounts k address _ hlast).symm
      | storage address index =>
        obtain ⟨layer, ht⟩ := hsound.tracked
        exact (ht.stands hvalid k address index _ hlast).symm
  rw [← hserial]
  refine ⟨hstates, fun c tx hc => funext fun l => ?_⟩
  have htake := hview states.length l
  rw [List.take_length] at htake
  rw [← htake]
  -- both positions come after all writes
  obtain ⟨result, hlast⟩ := exists_lastSeen hsound.data c tx l
  rw [view_eq hsound.data hlast]
  refine (view_eq hsound.data (hlast.sees_congr fun p hp => ?_)).symm
  obtain ⟨hround, hlow⟩ := hsound.round_eq hp
  refine iff_of_true (fun _ => hlength ▸ hlow) fun hown => ?_
  exact absurd (hround.symm.trans (beq_iff_eq.mp hown)) hc.ne

/-- Transaction 0 sets the slot, transaction 1 adds one to it, and transaction 2 looks at an
account. -/
def threeCodes : List Transaction := [.done (changeSlot 9 5), increment, .read (.basic 3) fun _ => .done ∅]

/-- The account is read first of all, and transaction 2 is done before transaction 1. -/
theorem validated_serial_three :
    let s := (start (FlatDb.mk nineInSlot ∅) 1 1 threeCodes).run 1 [2, 0, 1, 2, 1]
    s.db.validateRound 1 = [] ∧ s.tasks 1 = some (.finished (changeSlot 5 6)) ∧
      (s.db.view 2 0 (.storage 0 0) : Except String StorageValue) = .ok 6 := by
  intro s
  have honce : ∀ code ∈ threeCodes, ∀ store, (code.reads store).Nodup := by
    intro code hcode store
    simp only [threeCodes, List.mem_cons, List.not_mem_nil, or_false] at hcode
    rcases hcode with rfl | rfl | rfl
    · simp [Program.reads]
    · simp [increment, Program.reads]
    · simp [Program.reads]
  let s₀ := start (FlatDb.mk nineInSlot ∅) 1 1 threeCodes
  have hfirst : ∀ k l, ¬ (k = 2 ∧ l = .basic 3) → (s₀.step 1 2).lastRead k l = none :=
    (@fetches _ _ 1 s₀ 2 (.basic 3) (fun _ => .done ∅) rfl).reads
  have hsecond : ∀ k l, ¬ (k = 2 ∧ l = .basic 3) → 1 < k → (((s₀.step 1 2).step 1 0).step 1 1).lastRead k l = none := by
    intro k l hk hlt
    rw [(@fetches _ _ 1 ((s₀.step 1 2).step 1 0) 1 (.storage 0 0) _ rfl).reads k l fun hat => hlt.ne' hat.1]
    exact hfirst k l hk
  have haddress : ∀ {original present : StorageValue} {address : Address} {info : AccountInfo},
      accountWrite 1 (changeSlot original present) address = some info → Location.basic address ≠ .basic 3 := by
    intro original present address info hwrite heq
    obtain rfl := Location.basic.inj heq
    cases hwrite
  have hcareful : Along (step 1) (Careful 1) s₀ [2, 0, 1, 2, 1] := by
    refine ⟨fun state htask => ?_, fun state htask => ?_, fun state htask => ?_, fun state htask => ?_,
      fun state htask => ?_, trivial⟩
    · cases htask
    · cases htask
      exact ⟨fun key value _ k _ hread => absurd (hfirst k _ fun hat => by cases hat.2) hread,
        fun address info hwrite k _ hread => absurd (hfirst k _ fun hat => haddress hwrite hat.2) hread⟩
    · cases htask
    · cases htask
      refine ⟨fun key value hwrites => ?_, fun address info hwrite => ?_⟩
      · obtain ⟨account, slot, haccount, -⟩ := hwrites
        cases haccount
      · rw [accountWrite] at hwrite
        split_ifs at hwrite
        cases hwrite
    · cases htask
      exact ⟨fun key value _ k hlt hread => absurd (hsecond k _ (fun hat => by cases hat.2) hlt) hread,
        fun address info hwrite k hlt hread => absurd (hsecond k _ (fun hat => haddress hwrite hat.2) hlt) hread⟩
  have hfinished : ∀ k code, s.tasks k ≠ some (.running code) := by
    intro k code htask
    rcases k with _ | _ | _ | k
    · cases htask
    · cases htask
    · cases htask
    · cases htask
  have hvalid : s.db.validateRound 1 = [] := by decide +kernel
  obtain ⟨htasks, hview⟩ := validated_serial (FlatDb.mk nineInSlot ∅) 1 1 threeCodes honce _ hcareful hvalid hfinished
  refine ⟨hvalid, htasks 1, ?_⟩
  rw [hview 2 0 (by decide)]
  rfl

end Parallel

end ShadowDb

end DualOptimistic.Shadow
