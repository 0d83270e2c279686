import Mathlib.Data.Prod.Lex
import Mathlib.Data.List.Sort
import Mathlib.Data.Finset.Image

/-! Finite maps as strictly sorted association lists.

Ordered maps, hash maps and ordered sets of a program are all modelled here: the
entries are kept in key order, so two maps with the same lookups are equal
(`ext_get?`) and iterating in key order is reading the list. Every update is an
`alter` at one key, and `get?_alter` says everything about it. -/
namespace DualOptimistic.Data

universe u v w

/-- A finite map. The entries are strictly sorted by key, so a key occurs once. -/
structure OrdMap (κ : Type u) (ν : Type v) [LinearOrder κ] where
  entries : List (κ × ν)
  sorted : entries.Pairwise (fun a b => a.1 < b.1)

namespace OrdMap
variable {κ : Type u} {ν : Type v} [LinearOrder κ]

/-! ### Lookup in a sorted list -/

/-- The value of the first entry with key `k`. -/
def lookup (k : κ) : List (κ × ν) → Option ν
  | [] => none
  | (k', v) :: rest => if k = k' then some v else lookup k rest

theorem lookup_eq_none_of_forall_ne {k : κ} {l : List (κ × ν)} (h : ∀ e ∈ l, k ≠ e.1) :
    lookup k l = none := by
  induction l with
  | nil => rfl
  | cons e rest ih =>
    obtain ⟨k', v⟩ := e
    have hne : k ≠ k' := h _ (List.mem_cons_self ..)
    simp only [lookup, if_neg hne]
    exact ih fun e he => h e (List.mem_cons_of_mem _ he)

theorem mem_of_lookup {k : κ} {v : ν} {l : List (κ × ν)} (h : lookup k l = some v) : (k, v) ∈ l := by
  induction l with
  | nil => cases h
  | cons e rest ih =>
    obtain ⟨k', v'⟩ := e
    by_cases hk : k = k'
    · subst hk
      simp only [lookup, if_true, Option.some.injEq] at h
      exact h ▸ List.mem_cons_self ..
    · simp only [lookup, if_neg hk] at h
      exact List.mem_cons_of_mem _ (ih h)

theorem lookup_of_mem {k : κ} {v : ν} {l : List (κ × ν)} (hs : l.Pairwise (fun a b => a.1 < b.1))
    (h : (k, v) ∈ l) : lookup k l = some v := by
  induction l with
  | nil => cases h
  | cons e rest ih =>
    obtain ⟨k', v'⟩ := e
    rw [List.pairwise_cons] at hs
    rcases List.mem_cons.mp h with heq | hrest
    · obtain ⟨rfl, rfl⟩ := Prod.mk.inj heq
      simp only [lookup, if_true]
    · have hlt : k' < k := hs.1 _ hrest
      simp only [lookup, if_neg (ne_of_gt hlt)]
      exact ih hs.2 hrest

theorem lookup_iff_mem {k : κ} {v : ν} {l : List (κ × ν)} (hs : l.Pairwise (fun a b => a.1 < b.1)) :
    lookup k l = some v ↔ (k, v) ∈ l :=
  ⟨mem_of_lookup, lookup_of_mem hs⟩

/-- Two strictly sorted lists with the same lookups are the same list. -/
theorem eq_of_lookup_eq {l m : List (κ × ν)} (hl : l.Pairwise (fun a b => a.1 < b.1))
    (hm : m.Pairwise (fun a b => a.1 < b.1)) (h : ∀ k, lookup k l = lookup k m) : l = m := by
  have hmem : ∀ e, e ∈ l ↔ e ∈ m := by
    rintro ⟨k, v⟩
    rw [← lookup_iff_mem hl, ← lookup_iff_mem hm, h k]
  have hnl : l.Nodup := hl.imp fun hab he => absurd (congrArg Prod.fst he) (ne_of_lt hab)
  have hnm : m.Nodup := hm.imp fun hab he => absurd (congrArg Prod.fst he) (ne_of_lt hab)
  have hp : l.Perm m := (List.perm_ext_iff_of_nodup hnl hnm).mpr hmem
  exact hp.eq_of_pairwise (fun a b _ _ hab hba => absurd hab (not_lt_of_gt hba)) hl hm

/-! ### Changing the entry at one key -/

/-- Replace what stands at `k` by `f` of it, in key order. -/
def alterList (k : κ) (f : Option ν → Option ν) : List (κ × ν) → List (κ × ν)
  | [] => match f none with
    | none => []
    | some v => [(k, v)]
  | (k', v') :: rest =>
    if k < k' then
      match f none with
      | none => (k', v') :: rest
      | some v => (k, v) :: (k', v') :: rest
    else if k = k' then
      match f (some v') with
      | none => rest
      | some v => (k, v) :: rest
    else (k', v') :: alterList k f rest

theorem key_of_mem_alterList {k : κ} {f : Option ν → Option ν} {l : List (κ × ν)} {e : κ × ν}
    (h : e ∈ alterList k f l) : e.1 = k ∨ e ∈ l := by
  induction l with
  | nil =>
    simp only [alterList] at h
    split at h
    · cases h
    · exact .inl (by rw [List.mem_singleton.mp h])
  | cons e' rest ih =>
    obtain ⟨k', v'⟩ := e'
    simp only [alterList] at h
    split_ifs at h with hlt heq
    · split at h
      · exact .inr h
      · rcases List.mem_cons.mp h with rfl | h
        · exact .inl rfl
        · exact .inr h
    · split at h
      · exact .inr (List.mem_cons_of_mem _ h)
      · rcases List.mem_cons.mp h with rfl | h
        · exact .inl rfl
        · exact .inr (List.mem_cons_of_mem _ h)
    · rcases List.mem_cons.mp h with rfl | h
      · exact .inr (List.mem_cons_self ..)
      · rcases ih h with h | h
        · exact .inl h
        · exact .inr (List.mem_cons_of_mem _ h)

theorem sorted_alterList (k : κ) (f : Option ν → Option ν) {l : List (κ × ν)}
    (hs : l.Pairwise (fun a b => a.1 < b.1)) :
    (alterList k f l).Pairwise (fun a b => a.1 < b.1) := by
  induction l with
  | nil =>
    simp only [alterList]
    split
    · exact .nil
    · exact List.pairwise_singleton ..
  | cons e rest ih =>
    obtain ⟨k', v'⟩ := e
    have hs' := List.pairwise_cons.mp hs
    simp only [alterList]
    split_ifs with hlt heq
    · split
      · exact hs
      · refine List.pairwise_cons.mpr ⟨fun e he => ?_, hs⟩
        rcases List.mem_cons.mp he with rfl | he
        · exact hlt
        · exact hlt.trans (hs'.1 e he)
    · subst heq
      split
      · exact hs'.2
      · exact List.pairwise_cons.mpr ⟨hs'.1, hs'.2⟩
    · refine List.pairwise_cons.mpr ⟨fun e he => ?_, ih hs'.2⟩
      rcases key_of_mem_alterList he with he | he
      · exact he ▸ lt_of_le_of_ne (not_lt.mp hlt) (Ne.symm heq)
      · exact hs'.1 e he

theorem lookup_alterList (k k' : κ) (f : Option ν → Option ν) {l : List (κ × ν)}
    (hs : l.Pairwise (fun a b => a.1 < b.1)) :
    lookup k' (alterList k f l) = if k' = k then f (lookup k l) else lookup k' l := by
  induction l with
  | nil =>
    simp only [alterList]
    split <;> by_cases hk : k' = k <;> simp_all [lookup]
  | cons e rest ih =>
    obtain ⟨k₁, v₁⟩ := e
    have hs' := List.pairwise_cons.mp hs
    have habove : ∀ x : κ, x ≤ k₁ → lookup x rest = none := fun x hx =>
      lookup_eq_none_of_forall_ne fun e he => ne_of_lt (lt_of_le_of_lt hx (hs'.1 e he))
    by_cases hlt : k < k₁
    · -- `k` belongs in front of the list, so nothing stands at it
      have hnone : lookup k ((k₁, v₁) :: rest) = none := by
        simp only [lookup, if_neg (ne_of_lt hlt)]
        exact habove k hlt.le
      simp only [alterList, if_pos hlt, hnone]
      by_cases hk : k' = k
      · subst hk
        rw [if_pos rfl]
        split <;> simp_all [lookup]
      · rw [if_neg hk]
        split
        · rfl
        · simp only [lookup, if_neg hk]
    · by_cases heq : k = k₁
      · subst heq
        simp only [alterList, if_neg hlt, if_true]
        by_cases hk : k' = k
        · subst hk
          have hrest := habove k' le_rfl
          split <;> simp_all [lookup]
        · rw [if_neg hk]
          split <;> simp only [lookup, if_neg hk]
      · simp only [alterList, if_neg hlt, if_neg heq, lookup, ih hs'.2]
        by_cases hk : k' = k
        · subst hk
          simp only [if_true, if_neg heq]
        · simp only [if_neg hk]

/-! ### The map operations -/

/-- The value at a key. -/
def get? (m : OrdMap κ ν) (k : κ) : Option ν := lookup k m.entries

/-- Whether a key is present. -/
def contains (m : OrdMap κ ν) (k : κ) : Bool := (m.get? k).isSome

def empty : OrdMap κ ν := ⟨[], .nil⟩

instance : EmptyCollection (OrdMap κ ν) := ⟨empty⟩
instance : Inhabited (OrdMap κ ν) := ⟨empty⟩

/-- Replace the entry at `k` by `f` of it. -/
def alter (m : OrdMap κ ν) (k : κ) (f : Option ν → Option ν) : OrdMap κ ν :=
  ⟨alterList k f m.entries, sorted_alterList k f m.sorted⟩

/-- Set the value at `k`. -/
def insert (m : OrdMap κ ν) (k : κ) (v : ν) : OrdMap κ ν := m.alter k fun _ => some v

/-- Drop the entry at `k`. -/
def erase (m : OrdMap κ ν) (k : κ) : OrdMap κ ν := m.alter k fun _ => none

/-- Change the value at `k` in place, if there is one. -/
def modify (m : OrdMap κ ν) (k : κ) (f : ν → ν) : OrdMap κ ν := m.alter k (Option.map f)

/-- Change the value at `k`, starting from `d` if there is none. -/
def upsert (m : OrdMap κ ν) (k : κ) (d : ν) (f : ν → ν) : OrdMap κ ν :=
  m.alter k fun o => some (f (o.getD d))

def keys (m : OrdMap κ ν) : List κ := m.entries.map Prod.fst

def values (m : OrdMap κ ν) : List ν := m.entries.map Prod.snd

def size (m : OrdMap κ ν) : Nat := m.entries.length

/-- The entries whose keys satisfy `p`, in key order. -/
def range (m : OrdMap κ ν) (p : κ → Bool) : List (κ × ν) := m.entries.filter fun e => p e.1

/-- Keep the entries whose keys satisfy `p`. -/
def retain (m : OrdMap κ ν) (p : κ → Bool) : OrdMap κ ν := ⟨m.range p, m.sorted.filter _⟩

/-- Change every value, with its key. -/
def mapValues {μ : Type w} (m : OrdMap κ ν) (f : κ → ν → μ) : OrdMap κ μ :=
  ⟨m.entries.map fun e => (e.1, f e.1 e.2), List.pairwise_map.mpr m.sorted⟩

/-- Keep what `f` makes of the entries. -/
def filterMap {μ : Type w} (m : OrdMap κ ν) (f : κ → ν → Option μ) : OrdMap κ μ :=
  ⟨m.entries.filterMap fun e => (f e.1 e.2).map (e.1, ·), by
    refine m.sorted.filterMap _ fun a a' hlt b hb b' hb' => ?_
    obtain ⟨v, -, rfl⟩ := Option.map_eq_some_iff.mp hb
    obtain ⟨v', -, rfl⟩ := Option.map_eq_some_iff.mp hb'
    exact hlt⟩

/-! ### Their lookups -/

theorem get?_eq_some_iff {m : OrdMap κ ν} {k : κ} {v : ν} : m.get? k = some v ↔ (k, v) ∈ m.entries :=
  lookup_iff_mem m.sorted

@[ext] theorem ext_get? {m m' : OrdMap κ ν} (h : ∀ k, m.get? k = m'.get? k) : m = m' := by
  obtain ⟨l, hl⟩ := m
  obtain ⟨l', hl'⟩ := m'
  congr
  exact eq_of_lookup_eq hl hl' h

@[simp] theorem get?_empty (k : κ) : (∅ : OrdMap κ ν).get? k = none := rfl

theorem get?_alter (m : OrdMap κ ν) (k k' : κ) (f : Option ν → Option ν) :
    (m.alter k f).get? k' = if k' = k then f (m.get? k) else m.get? k' :=
  lookup_alterList k k' f m.sorted

@[simp] theorem get?_insert (m : OrdMap κ ν) (k k' : κ) (v : ν) :
    (m.insert k v).get? k' = if k' = k then some v else m.get? k' :=
  get?_alter m k k' _

@[simp] theorem get?_erase (m : OrdMap κ ν) (k k' : κ) :
    (m.erase k).get? k' = if k' = k then none else m.get? k' :=
  get?_alter m k k' _

@[simp] theorem get?_modify (m : OrdMap κ ν) (k k' : κ) (f : ν → ν) :
    (m.modify k f).get? k' = if k' = k then (m.get? k).map f else m.get? k' :=
  get?_alter m k k' _

@[simp] theorem get?_upsert (m : OrdMap κ ν) (k k' : κ) (d : ν) (f : ν → ν) :
    (m.upsert k d f).get? k' = if k' = k then some (f ((m.get? k).getD d)) else m.get? k' :=
  get?_alter m k k' _

theorem contains_iff {m : OrdMap κ ν} {k : κ} : m.contains k = true ↔ ∃ v, m.get? k = some v := by
  rw [contains, Option.isSome_iff_exists]

theorem contains_iff_mem_keys {m : OrdMap κ ν} {k : κ} : m.contains k = true ↔ k ∈ m.keys := by
  simp [contains_iff, keys, get?_eq_some_iff]

@[simp] theorem contains_empty (k : κ) : (∅ : OrdMap κ ν).contains k = false := rfl

@[simp] theorem contains_insert (m : OrdMap κ ν) (k k' : κ) (v : ν) :
    (m.insert k v).contains k' = (decide (k' = k) || m.contains k') := by
  by_cases h : k' = k <;> simp [contains, h]

@[simp] theorem contains_erase (m : OrdMap κ ν) (k k' : κ) :
    (m.erase k).contains k' = (!decide (k' = k) && m.contains k') := by
  by_cases h : k' = k <;> simp [contains, h]

@[simp] theorem contains_modify (m : OrdMap κ ν) (k k' : κ) (f : ν → ν) :
    (m.modify k f).contains k' = m.contains k' := by
  by_cases h : k' = k <;> simp [contains, h]

@[simp] theorem contains_upsert (m : OrdMap κ ν) (k k' : κ) (d : ν) (f : ν → ν) :
    (m.upsert k d f).contains k' = (decide (k' = k) || m.contains k') := by
  by_cases h : k' = k <;> simp [contains, h]

theorem mem_range {m : OrdMap κ ν} {p : κ → Bool} {k : κ} {v : ν} :
    (k, v) ∈ m.range p ↔ m.get? k = some v ∧ p k = true := by
  rw [range, List.mem_filter, get?_eq_some_iff]

@[simp] theorem get?_retain (m : OrdMap κ ν) (p : κ → Bool) (k : κ) :
    (m.retain p).get? k = if p k then m.get? k else none := by
  apply Option.ext
  intro v
  have hr : (m.retain p).get? k = some v ↔ (k, v) ∈ m.range p := lookup_iff_mem (m.retain p).sorted
  rw [hr, mem_range]
  by_cases h : p k = true <;> simp [h]

theorem lookup_map {μ : Type w} (f : κ → ν → μ) (k : κ) (l : List (κ × ν)) :
    lookup k (l.map fun e => (e.1, f e.1 e.2)) = (lookup k l).map (f k) := by
  induction l with
  | nil => rfl
  | cons e rest ih =>
    obtain ⟨k', v⟩ := e
    by_cases hk : k = k'
    · subst hk
      simp [lookup]
    · simp only [List.map_cons, lookup, if_neg hk, ih]

@[simp] theorem get?_mapValues {μ : Type w} (m : OrdMap κ ν) (f : κ → ν → μ) (k : κ) :
    (m.mapValues f).get? k = (m.get? k).map (f k) :=
  lookup_map f k m.entries

@[simp] theorem get?_filterMap {μ : Type w} (m : OrdMap κ ν) (f : κ → ν → Option μ) (k : κ) :
    (m.filterMap f).get? k = (m.get? k).bind (f k) := by
  apply Option.ext
  intro v
  rw [get?_eq_some_iff, Option.bind_eq_some_iff]
  simp only [get?_eq_some_iff, filterMap, List.mem_filterMap, Option.map_eq_some_iff, Prod.mk.injEq]
  constructor
  · rintro ⟨⟨k', u⟩, hmem, v', hf, rfl, rfl⟩
    exact ⟨u, hmem, hf⟩
  · rintro ⟨u, hmem, hf⟩
    exact ⟨(k, u), hmem, v, hf, rfl, rfl⟩

@[simp] theorem contains_mapValues {μ : Type w} (m : OrdMap κ ν) (f : κ → ν → μ) (k : κ) :
    (m.mapValues f).contains k = m.contains k := by
  simp [contains]

theorem keys_nodup (m : OrdMap κ ν) : m.keys.Nodup :=
  List.pairwise_map.mpr (m.sorted.imp fun h => ne_of_lt h)

/-- Two updates commute at different keys, and at one key if the functions do. -/
theorem upsert_comm (m : OrdMap κ ν) {k k' : κ} (d : ν) (f g : ν → ν)
    (h : k = k' → ∀ v, g (f v) = f (g v)) :
    (m.upsert k d f).upsert k' d g = (m.upsert k' d g).upsert k d f := by
  ext i
  simp only [get?_upsert]
  by_cases hk : k = k'
  · subst hk
    by_cases hi : i = k
    · simp [hi, h rfl]
    · simp [hi]
  · by_cases hi : i = k
    · subst hi
      simp [hk]
    · by_cases hi' : i = k'
      · subst hi'
        simp [Ne.symm hk]
      · simp [hi, hi']

theorem insert_comm (m : OrdMap κ ν) {k k' : κ} (h : k ≠ k') (v v' : ν) :
    (m.insert k v).insert k' v' = (m.insert k' v').insert k v :=
  m.upsert_comm v (fun _ => v) (fun _ => v') fun heq => absurd heq h

/-- A fold over the entries, seen through what only the entry of one key changes. -/
theorem foldl_entries {σ : Type*} {τ : Type*} {f : σ → κ × ν → σ} {view : σ → τ} {k : κ} {update : ν → τ → τ}
    (hother : ∀ s e, e.1 ≠ k → view (f s e) = view s) (hself : ∀ s v, view (f s (k, v)) = update v (view s))
    (m : OrdMap κ ν) (s : σ) :
    view (m.entries.foldl f s) = ((m.get? k).map fun v => update v (view s)).getD (view s) := by
  have hnone : ∀ (l : List (κ × ν)) (s : σ), (∀ e ∈ l, e.1 ≠ k) → view (l.foldl f s) = view s := by
    intro l
    induction l with
    | nil => exact fun s _ => rfl
    | cons e rest ih =>
      intro s hne
      rw [List.foldl_cons, ih _ fun e' he' => hne e' (List.mem_cons_of_mem _ he')]
      exact hother s e (hne e (List.mem_cons_self ..))
  obtain ⟨entries, hsorted⟩ := m
  show view (entries.foldl f s) = ((lookup k entries).map fun v => update v (view s)).getD (view s)
  induction entries generalizing s with
  | nil => rfl
  | cons e rest ih =>
    obtain ⟨k', v⟩ := e
    rw [List.pairwise_cons] at hsorted
    by_cases hk : k = k'
    · subst hk
      rw [List.foldl_cons, hnone rest _ fun e he => (hsorted.1 e he).ne', hself, lookup, if_pos rfl]
      rfl
    · rw [List.foldl_cons, ih _ hsorted.2, hother s _ (Ne.symm hk), lookup, if_neg hk]

theorem size_eq_of_contains {m m' : OrdMap κ ν} (h : ∀ k, m.contains k = m'.contains k) : m.size = m'.size := by
  have hperm : m.keys.Perm m'.keys := by
    refine (List.perm_ext_iff_of_nodup m.keys_nodup m'.keys_nodup).mpr fun k => ?_
    rw [← contains_iff_mem_keys, ← contains_iff_mem_keys, h]
  have hlen := hperm.length_eq
  rwa [keys, keys, List.length_map, List.length_map] at hlen

instance [DecidableEq ν] : DecidableEq (OrdMap κ ν) := fun m m' =>
  decidable_of_iff (m.entries = m'.entries) (by cases m; cases m'; simp)

/-! ### Searching from the greatest key down -/

/-- What `f` makes of the greatest key it makes anything of. -/
def findLast {μ : Type w} (m : OrdMap κ ν) (f : κ → ν → Option μ) : Option (κ × μ) :=
  m.entries.reverse.findSome? fun e => (f e.1 e.2).map (e.1, ·)

theorem findLast_map {μ : Type w} {μ' : Type*} (m : OrdMap κ ν) (f : κ → ν → Option μ) (g : μ → μ') :
    (m.findLast fun k v => (f k v).map g) = (m.findLast f).map fun e => (e.1, g e.2) := by
  rw [findLast, findLast, List.map_findSome?]
  congr 1
  funext e
  cases h : f e.1 e.2 with
  | none => simp [h]
  | some x => simp [h]

theorem findLast_eq_getLast? {μ : Type w} (m : OrdMap κ ν) (f : κ → ν → Option μ) :
    m.findLast f = (m.filterMap f).entries.getLast? := by
  have h : ∀ l : List (κ × ν), (l.findSome? fun e => (f e.1 e.2).map (e.1, ·)) =
      (l.filterMap fun e => (f e.1 e.2).map (e.1, ·)).head? := by
    intro l
    induction l with
    | nil => rfl
    | cons e rest ih =>
      rw [List.findSome?_cons, List.filterMap_cons]
      cases (f e.1 e.2).map (e.1, ·) with
      | none => exact ih
      | some x => rfl
  rw [findLast, h, List.filterMap_reverse, List.head?_reverse]
  rfl

/-- Searching a range downwards is searching the map for keys in the range. -/
theorem findSome?_range {μ : Type w} (m : OrdMap κ ν) (p : κ → Bool) (g : κ → ν → Option μ) :
    ((m.range p).reverse.findSome? fun e => g e.1 e.2) =
      (m.findLast fun k v => if p k then g k v else none).map Prod.snd := by
  have h : ∀ l : List (κ × ν), ((l.filter fun e => p e.1).findSome? fun e => g e.1 e.2) =
      (l.findSome? fun e => (if p e.1 then g e.1 e.2 else none).map (e.1, ·)).map Prod.snd := by
    intro l
    induction l with
    | nil => rfl
    | cons e rest ih =>
      by_cases hp : p e.1 = true
      · simp only [List.filter_cons, List.findSome?_cons, hp, if_true]
        cases g e.1 e.2 with
        | none => exact ih
        | some x => rfl
      · simp only [List.filter_cons, List.findSome?_cons, hp]
        exact ih
  rw [range, ← List.filter_reverse, h, findLast]

/-- A downward search sees of a map only what `f` makes of it. -/
theorem findLast_congr {μ : Type w} {ν' : Type v} {m : OrdMap κ ν} {m' : OrdMap κ ν'}
    {f : κ → ν → Option μ} {f' : κ → ν' → Option μ}
    (h : ∀ k, (m.get? k).bind (f k) = (m'.get? k).bind (f' k)) : m.findLast f = m'.findLast f' := by
  have hmap : m.filterMap f = m'.filterMap f' := by
    apply ext_get?
    intro k
    rw [get?_filterMap, get?_filterMap, h k]
  rw [findLast_eq_getLast?, findLast_eq_getLast?, hmap]

theorem findLast_eq_none {μ : Type w} {m : OrdMap κ ν} {f : κ → ν → Option μ} :
    m.findLast f = none ↔ ∀ k, (m.get? k).bind (f k) = none := by
  constructor
  · intro h k
    rw [findLast_eq_getLast?, List.getLast?_eq_none_iff] at h
    rw [← get?_filterMap, get?, h]
    rfl
  · intro h
    have hempty : m.findLast f = (∅ : OrdMap κ ν).findLast f := findLast_congr h
    rw [hempty]
    rfl

theorem findLast_eq_some {μ : Type w} {m : OrdMap κ ν} {f : κ → ν → Option μ} {k : κ} {x : μ} :
    m.findLast f = some (k, x) ↔
      (m.get? k).bind (f k) = some x ∧ ∀ k', k < k' → (m.get? k').bind (f k') = none := by
  rw [findLast_eq_getLast?]
  have hget : ∀ k, (m.get? k).bind (f k) = (m.filterMap f).get? k := fun k => (get?_filterMap m f k).symm
  simp only [hget]
  generalize m.filterMap f = n
  constructor
  · intro h
    obtain ⟨front, hfront⟩ := List.getLast?_eq_some_iff.mp h
    have hmem : (k, x) ∈ n.entries := by rw [hfront]; simp
    refine ⟨get?_eq_some_iff.mpr hmem, fun k' hlt => ?_⟩
    by_contra hne
    obtain ⟨v, hv⟩ := Option.ne_none_iff_exists'.mp hne
    have hv' := get?_eq_some_iff.mp hv
    have hs := n.sorted
    rw [hfront] at hv' hs
    rcases List.mem_append.mp hv' with hin | hin
    · exact lt_asymm hlt ((List.pairwise_append.mp hs).2.2 _ hin _ (List.mem_singleton_self _))
    · exact lt_irrefl k ((Prod.mk.inj (List.mem_singleton.mp hin)).1 ▸ hlt)
  · intro h
    obtain ⟨hk, habove⟩ := h
    have hmem := get?_eq_some_iff.mp hk
    cases hlast : n.entries.getLast? with
    | none =>
      rw [List.getLast?_eq_none_iff.mp hlast] at hmem
      cases hmem
    | some e =>
      obtain ⟨k', v⟩ := e
      have hin : (k', v) ∈ n.entries := List.mem_of_getLast? hlast
      obtain ⟨front, hfront⟩ := List.getLast?_eq_some_iff.mp hlast
      have hle : ¬ k < k' := by
        intro hlt
        have hnone := habove k' hlt
        rw [get?_eq_some_iff.mpr hin] at hnone
        cases hnone
      have hs := n.sorted
      rw [hfront] at hmem hs
      rcases List.mem_append.mp hmem with hin' | hin'
      · exact absurd ((List.pairwise_append.mp hs).2.2 _ hin' _ (List.mem_singleton_self _)) hle
      · rw [List.mem_singleton.mp hin']

/-- What stands below the key found does not matter. -/
theorem findLast_of_above {μ : Type w} {m m' : OrdMap κ ν} {f : κ → ν → Option μ} {k : κ} {x : μ}
    (h : m.findLast f = some (k, x)) (hsame : ∀ k', k ≤ k' → m'.get? k' = m.get? k') :
    m'.findLast f = some (k, x) := by
  obtain ⟨hk, habove⟩ := findLast_eq_some.mp h
  refine findLast_eq_some.mpr ⟨by rw [hsame k le_rfl, hk], fun k' hlt => ?_⟩
  rw [hsame k' hlt.le]
  exact habove k' hlt

end OrdMap

/-! ### Ordered sets -/

/-- An ordered set: a map to nothing. -/
abbrev OrdSet (κ : Type u) [LinearOrder κ] := OrdMap κ Unit

namespace OrdSet
variable {κ : Type u} [LinearOrder κ]

def add (s : OrdSet κ) (k : κ) : OrdSet κ := OrdMap.insert s k ()

/-- Add every element of a list. -/
def addAll (s : OrdSet κ) (ks : List κ) : OrdSet κ := ks.foldl add s

/-- The elements in ascending order. -/
def toList (s : OrdSet κ) : List κ := OrdMap.keys s

theorem mem_toList {s : OrdSet κ} {k : κ} : k ∈ toList s ↔ OrdMap.contains s k = true :=
  OrdMap.contains_iff_mem_keys.symm

@[simp] theorem mem_toList_add {s : OrdSet κ} {k k' : κ} : k' ∈ toList (add s k) ↔ k' = k ∨ k' ∈ toList s := by
  simp [mem_toList, add]

@[simp] theorem mem_toList_addAll {s : OrdSet κ} {ks : List κ} {k : κ} :
    k ∈ toList (addAll s ks) ↔ k ∈ ks ∨ k ∈ toList s := by
  induction ks generalizing s with
  | nil => simp [addAll]
  | cons x rest ih =>
    have h : addAll s (x :: rest) = addAll (add s x) rest := rfl
    rw [h, ih, mem_toList_add, List.mem_cons]
    tauto

@[simp] theorem mem_toList_empty {k : κ} : k ∉ toList (∅ : OrdSet κ) := by
  simp [mem_toList]

@[simp] theorem mem_toList_erase {s : OrdSet κ} {k k' : κ} :
    k' ∈ toList (OrdMap.erase s k) ↔ k' ≠ k ∧ k' ∈ toList s := by
  simp [mem_toList]

theorem toList_sorted (s : OrdSet κ) : (toList s).Pairwise (· < ·) :=
  List.pairwise_map.mpr s.sorted

/-- The greatest element. -/
def last? (s : OrdSet κ) : Option κ := (toList s).getLast?

theorem last?_mem {s : OrdSet κ} {k : κ} (h : last? s = some k) : k ∈ toList s :=
  List.mem_of_getLast? h

theorem le_last? {s : OrdSet κ} {k k' : κ} (h : last? s = some k) (hk : k' ∈ toList s) : k' ≤ k := by
  obtain ⟨front, hfront⟩ := List.getLast?_eq_some_iff.mp h
  have hs := toList_sorted s
  rw [hfront] at hs hk
  rcases List.mem_append.mp hk with hk | hk
  · exact (List.pairwise_append.mp hs).2.2 k' hk k (List.mem_singleton_self k) |>.le
  · exact (List.mem_singleton.mp hk).le

theorem last?_eq_none {s : OrdSet κ} : last? s = none ↔ toList s = [] :=
  List.getLast?_eq_none_iff

end OrdSet

end DualOptimistic.Data
