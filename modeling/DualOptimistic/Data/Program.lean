import Mathlib.Data.List.Basic
import Mathlib.Logic.Function.Basic

/-! Programs over a store, one after another.

A program reads keys of a store, may choose what to read next by what it has read, and ends with
a result; a result overwrites some keys. A program sees a store only through the keys it reads
(`eval_congr`). So if every result is what its program gives on a store that reads like the one
the results before it leave, then the results are those of the programs run one after another
(`serial_of_consistent`), wherever and in whatever order they were computed. -/
namespace DualOptimistic.Data

universe u v w

/-- A program over a store with keys `κ`, values `ν` and results `ρ`. -/
inductive Program (κ : Type u) (ν : κ → Type v) (ρ : Type w) where
  | done (result : ρ)
  | read (key : κ) (next : ν key → Program κ ν ρ)

namespace Program
variable {κ : Type u} {ν : κ → Type v} {ρ : Type w}

def eval (store : ∀ k, ν k) : Program κ ν ρ → ρ
  | done result => result
  | read key next => (next (store key)).eval store

/-- The keys the program reads of the store, in order. -/
def reads (store : ∀ k, ν k) : Program κ ν ρ → List κ
  | done _ => []
  | read key next => key :: (next (store key)).reads store

@[simp] theorem eval_read (store : ∀ k, ν k) (key : κ) (next : ν key → Program κ ν ρ) :
    (read key next).eval store = (next (store key)).eval store := rfl

/-- **What a program reads is all it sees.** -/
theorem eval_congr {store store' : ∀ k, ν k} {p : Program κ ν ρ}
    (h : ∀ k ∈ p.reads store, store' k = store k) : p.eval store' = p.eval store := by
  induction p with
  | done result => rfl
  | read key next ih =>
    have hkey : store' key = store key := h key (List.mem_cons_self ..)
    rw [eval_read, eval_read, hkey]
    exact ih _ fun k hk => h k (List.mem_cons_of_mem _ hk)

/-! ### A program on its way -/

/-- The program has come to `rest` by reading `past`, where it saw what `seen` holds. -/
def Reached (p : Program κ ν ρ) (seen : ∀ k, ν k) (past : List κ) (rest : Program κ ν ρ) : Prop :=
  ∀ store : ∀ k, ν k, (∀ k ∈ past, store k = seen k) →
    p.reads store = past ++ rest.reads store ∧ p.eval store = rest.eval store

theorem reached_self (p : Program κ ν ρ) (seen : ∀ k, ν k) : p.Reached seen [] p := fun _ _ => ⟨rfl, rfl⟩

/-- **One more read**, of a key not read before. -/
theorem Reached.read [DecidableEq κ] {p : Program κ ν ρ} {seen : ∀ k, ν k} {past : List κ} {key : κ}
    {next : ν key → Program κ ν ρ} (h : p.Reached seen past (.read key next)) (hnew : key ∉ past) (value : ν key) :
    p.Reached (Function.update seen key value) (past ++ [key]) (next value) := by
  intro store hstore
  have hkey : store key = value := by
    rw [hstore key (by simp), Function.update_self]
  have hpast : ∀ k ∈ past, store k = seen k := by
    intro k hk
    have hne : k ≠ key := fun heq => hnew (heq ▸ hk)
    rw [hstore k (List.mem_append_left _ hk), Function.update_of_ne hne]
  obtain ⟨hreads, heval⟩ := h store hpast
  rw [hreads, heval, reads, eval_read, hkey]
  exact ⟨List.append_cons .., rfl⟩

/-- A program that never reads a key twice has not read the next one. -/
theorem Reached.not_mem {p : Program κ ν ρ} {seen : ∀ k, ν k} {past : List κ} {key : κ}
    {next : ν key → Program κ ν ρ} (h : p.Reached seen past (.read key next)) (honce : ∀ store, (p.reads store).Nodup) :
    key ∉ past := by
  intro hmem
  have hnodup := honce seen
  rw [(h seen fun _ _ => rfl).1, reads] at hnodup
  exact (List.nodup_append.mp hnodup).2.2 key hmem key (List.mem_cons_self ..) rfl

/-! ### One after another -/

section
variable (write : ρ → ∀ k, Option (ν k))

/-- The store after a result. -/
def overwrite (store : ∀ k, ν k) (result : ρ) : ∀ k, ν k := fun k => (write result k).getD (store k)

/-- The store after results. -/
def storeAfter (store : ∀ k, ν k) (results : List ρ) : ∀ k, ν k := results.foldl (overwrite write) store

/-- The results of programs run one after another. -/
def serial (store : ∀ k, ν k) : List (Program κ ν ρ) → List ρ
  | [] => []
  | p :: rest => p.eval store :: serial (overwrite write store (p.eval store)) rest

theorem storeAfter_concat (store : ∀ k, ν k) (results : List ρ) (result : ρ) :
    storeAfter write store (results ++ [result]) = overwrite write (storeAfter write store results) result := by
  simp [storeAfter]

variable {write}

/-- **Consistent results are serial results.** -/
theorem serial_of_consistent {store : ∀ k, ν k} {programs : List (Program κ ν ρ)} {results : List ρ}
    (hlength : results.length = programs.length)
    (h : ∀ i p, programs[i]? = some p → ∃ seen, results[i]? = some (p.eval seen) ∧
      ∀ k ∈ p.reads seen, seen k = storeAfter write store (results.take i) k) :
    results = serial write store programs := by
  induction programs generalizing store results with
  | nil => exact List.length_eq_zero_iff.mp hlength
  | cons p rest ih =>
    cases results with
    | nil => cases hlength
    | cons result later =>
      -- the first program read the store itself
      obtain ⟨seen, hresult, hseen⟩ := h 0 p rfl
      have hfirst : result = p.eval store := by
        have hsame : p.eval store = p.eval seen := eval_congr fun k hk => (hseen k hk).symm
        rw [hsame]
        exact Option.some.inj hresult
      subst hfirst
      have hrest : later = serial write (overwrite write store (p.eval store)) rest := by
        refine ih (Nat.succ.inj hlength) fun i q hq => ?_
        obtain ⟨seen, hresult, hseen⟩ := h (i + 1) q hq
        exact ⟨seen, hresult, hseen⟩
      rw [serial, ← hrest]

end

end Program

end DualOptimistic.Data
