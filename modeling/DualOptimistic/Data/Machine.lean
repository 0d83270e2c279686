import Mathlib.Data.List.Induction

/-! Machines that answer each input.

A machine takes inputs one by one and answers each of them. The trace of a run pairs every
input with its answer. A trace splits where its inputs split (`trace_split`),
and what one step keeps of the trace so far and the state, a run keeps (`run_keeps`). What
inputs set and clear is as the last of them left it (`flag_run_iff`). An invariant that steps
keep under a condition holds all along the runs that meet it (`Along.keeps`). What was set and
not cleared since grows input by input (`since_concat`). -/
namespace DualOptimistic.Data

universe u v w

/-- A split of a list with one element more: at that element, or a split of the list. -/
theorem concat_eq_split {α : Type u} {l front back : List α} {e x : α} :
    l ++ [e] = front ++ x :: back ↔
      (front = l ∧ x = e ∧ back = []) ∨ ∃ mid, back = mid ++ [e] ∧ l = front ++ x :: mid := by
  rcases List.eq_nil_or_concat back with rfl | ⟨mid, z, rfl⟩
  · constructor
    · intro h
      obtain ⟨rfl, he⟩ := List.append_inj' h rfl
      exact .inl ⟨rfl, (List.singleton_inj.mp he).symm, rfl⟩
    · intro h
      rcases h with ⟨rfl, rfl, -⟩ | ⟨mid, hmid, -⟩
      · rfl
      · exact absurd hmid.symm (List.append_ne_nil_of_right_ne_nil _ (List.cons_ne_nil _ _))
  · rw [List.concat_eq_append, ← List.cons_append, ← List.append_assoc]
    constructor
    · intro h
      obtain ⟨rfl, he⟩ := List.append_inj' h rfl
      obtain rfl := List.singleton_inj.mp he
      exact .inr ⟨mid, rfl, rfl⟩
    · intro h
      rcases h with ⟨-, -, hnil⟩ | ⟨mid', hmid, rfl⟩
      · exact absurd hnil (List.append_ne_nil_of_right_ne_nil _ (List.cons_ne_nil _ _))
      · obtain ⟨rfl, he⟩ := List.append_inj' hmid rfl
        rw [List.singleton_inj.mp he]

/-- A deterministic machine over states `σ`, with inputs `ι` and answers `ο`. -/
structure Machine (σ : Type u) (ι : Type v) (ο : Type w) where
  step : σ → ι → ο × σ

namespace Machine
variable {σ : Type u} {ι : Type v} {ο : Type w} (m : Machine σ ι ο)

/-- The state after the inputs. -/
def run (s : σ) : List ι → σ
  | [] => s
  | i :: rest => run (m.step s i).2 rest

/-- The inputs with their answers. -/
def trace (s : σ) : List ι → List (ι × ο)
  | [] => []
  | i :: rest => (i, (m.step s i).1) :: trace (m.step s i).2 rest

@[simp] theorem run_nil (s : σ) : m.run s [] = s := rfl

@[simp] theorem trace_nil (s : σ) : m.trace s [] = [] := rfl

theorem run_append (s : σ) (l l' : List ι) : m.run s (l ++ l') = m.run (m.run s l) l' := by
  induction l generalizing s with
  | nil => rfl
  | cons i rest ih => exact ih _

theorem run_concat (s : σ) (l : List ι) (i : ι) : m.run s (l ++ [i]) = (m.step (m.run s l) i).2 :=
  m.run_append s l [i]

theorem trace_inputs (s : σ) (l : List ι) : (m.trace s l).map Prod.fst = l := by
  induction l generalizing s with
  | nil => rfl
  | cons i rest ih => exact congrArg (i :: ·) (ih _)

variable {m} {s : σ}

/-- **A trace splits where its inputs split.** -/
theorem trace_split {l : List ι} {front back : List (ι × ο)} (h : m.trace s l = front ++ back) :
    ∃ before after, l = before ++ after ∧ m.trace s before = front ∧ m.trace (m.run s before) after = back := by
  induction front generalizing s l with
  | nil => exact ⟨[], l, rfl, rfl, h⟩
  | cons e front ih =>
    cases l with
    | nil => cases h
    | cons i rest =>
      obtain ⟨hhead, htail⟩ := List.cons.inj h
      obtain ⟨before, after, rfl, hfront, hback⟩ := ih htail
      refine ⟨i :: before, after, rfl, ?_, hback⟩
      exact (congrArg _ hfront).trans (congrArg (· :: front) hhead)

/-- An answer in a trace is that of its input, in the state the inputs before it leave. -/
theorem trace_split_cons {l : List ι} {front back : List (ι × ο)} {i : ι} {o : ο}
    (h : m.trace s l = front ++ (i, o) :: back) :
    ∃ before after, l = before ++ i :: after ∧ m.trace s before = front ∧
      (m.step (m.run s before) i).1 = o ∧ m.trace (m.step (m.run s before) i).2 after = back := by
  obtain ⟨before, tail, rfl, hfront, htail⟩ := trace_split h
  cases tail with
  | nil => cases htail
  | cons j after =>
    obtain ⟨hhead, hback⟩ := List.cons.inj htail
    obtain ⟨rfl, ho⟩ := Prod.mk.inj hhead
    exact ⟨before, after, rfl, hfront, ho, hback⟩

/-- **What a step keeps, a run keeps.** -/
theorem run_keeps {P : List (ι × ο) → σ → Prop}
    (hstep : ∀ {log s}, P log s → ∀ i, P (log ++ [(i, (m.step s i).1)]) (m.step s i).2)
    {log : List (ι × ο)} {s : σ} (h : P log s) (l : List ι) : P (log ++ m.trace s l) (m.run s l) := by
  induction l generalizing log s with
  | nil => rwa [trace_nil, List.append_nil]
  | cons i rest ih =>
    have hrest := ih (hstep h i)
    rwa [List.append_assoc, List.singleton_append] at hrest

/-- **A flag and its last change.** A flag that one kind of input sets and another clears, and
that was set, is set after a run exactly if every input that clears it is followed by one that
sets it. -/
theorem flag_run_iff {flag : σ → Prop} {sets clears : σ → ι → Prop}
    (hstep : ∀ s i, flag (m.step s i).2 ↔ sets s i ∨ flag s ∧ ¬ clears s i)
    (hone : ∀ s i, sets s i → ¬ clears s i) (h : flag s) (l : List ι) :
    flag (m.run s l) ↔ ∀ before i after, l = before ++ i :: after → clears (m.run s before) i →
      ∃ mid j rest, after = mid ++ j :: rest ∧ sets (m.run s (before ++ i :: mid)) j := by
  induction l using List.reverseRecOn with
  | nil =>
    refine iff_of_true h fun before i after hsplit => ?_
    exact absurd hsplit.symm (List.append_ne_nil_of_right_ne_nil _ (List.cons_ne_nil _ _))
  | append_singleton l e ih =>
    rw [run_concat, hstep, ih]
    constructor
    · intro hflag before i after hsplit hclear
      rcases concat_eq_split.mp hsplit with ⟨rfl, rfl, rfl⟩ | ⟨mid, rfl, rfl⟩
      · rcases hflag with hset | ⟨-, hkept⟩
        · exact absurd hclear (hone _ _ hset)
        · exact absurd hclear hkept
      · rcases hflag with hset | ⟨hall, -⟩
        · exact ⟨mid, e, [], rfl, hset⟩
        · obtain ⟨mid', j, rest, rfl, hset⟩ := hall before i mid rfl hclear
          exact ⟨mid', j, rest ++ [e], List.append_assoc .., hset⟩
    · intro hall
      by_cases hset : sets (m.run s l) e
      · exact .inl hset
      · refine .inr ⟨fun before i after hsplit hclear => ?_, fun hclear => ?_⟩
        · subst hsplit
          obtain ⟨mid, j, rest, hafter, hj⟩ :=
            hall before i (after ++ [e]) (by rw [List.append_assoc, List.cons_append]) hclear
          rcases concat_eq_split.mp hafter with ⟨rfl, rfl, rfl⟩ | ⟨rest', -, rfl⟩
          · exact absurd hj hset
          · exact ⟨mid, j, rest', rfl, hj⟩
        · obtain ⟨mid, j, rest, hnil, -⟩ := hall l e [] rfl hclear
          exact absurd hnil.symm (List.append_ne_nil_of_right_ne_nil _ (List.cons_ne_nil _ _))

end Machine

/-! ### Runs under a condition -/

section
variable {σ : Type u} {ι : Type v} {step : σ → ι → σ} {P : σ → ι → Prop}

/-- Each input of the run meets `P` in the state it is taken in. -/
def Along (step : σ → ι → σ) (P : σ → ι → Prop) : σ → List ι → Prop
  | _, [] => True
  | s, i :: rest => P s i ∧ Along step P (step s i) rest

instance decidableAlong [∀ s i, Decidable (P s i)] : (s : σ) → (l : List ι) → Decidable (Along step P s l)
  | _, [] => inferInstanceAs (Decidable True)
  | s, i :: rest =>
    have := decidableAlong (step s i) rest
    inferInstanceAs (Decidable (_ ∧ _))

/-- **What a step keeps under a condition**, a run that meets it keeps in every state. -/
theorem Along.keeps {Inv : σ → Prop} (hstep : ∀ s i, Inv s → P s i → Inv (step s i)) {s : σ} (h : Inv s)
    {l : List ι} (hl : Along step P s l) : ∀ done, done <+: l → Inv (done.foldl step s) := by
  induction l generalizing s with
  | nil =>
    intro done hdone
    rwa [List.prefix_nil.mp hdone]
  | cons i rest ih =>
    intro done hdone
    rcases List.prefix_cons_iff.mp hdone with rfl | ⟨done, rfl, hrest⟩
    · exact h
    · exact ih (hstep s i h hl.1) hl.2 done hrest

theorem along_append {s : σ} {l l' : List ι} :
    Along step P s (l ++ l') ↔ Along step P s l ∧ Along step P (l.foldl step s) l' := by
  induction l generalizing s with
  | nil => exact (iff_of_eq (true_and _)).symm
  | cons i rest ih =>
    show P s i ∧ Along step P (step s i) (rest ++ l') ↔ (P s i ∧ Along step P (step s i) rest) ∧ _
    rw [ih, and_assoc]
    rfl

/-- Some input of the run set it, and none after that cleared it. -/
def Since (step : σ → ι → σ) (sets clears : σ → ι → Prop) (s : σ) (l : List ι) : Prop :=
  ∃ before i after, l = before ++ i :: after ∧ sets (before.foldl step s) i ∧
    ∀ mid j rest, after = mid ++ j :: rest → ¬ clears ((before ++ i :: mid).foldl step s) j

variable {sets clears : σ → ι → Prop} {s : σ}

theorem not_since_nil : ¬ Since step sets clears s [] := by
  intro h
  obtain ⟨before, i, after, hsplit, -⟩ := h
  exact absurd hsplit.symm (List.append_ne_nil_of_right_ne_nil _ (List.cons_ne_nil _ _))

/-- **One more input** sets it, or leaves it as it was. -/
theorem since_concat {l : List ι} {e : ι} : Since step sets clears s (l ++ [e]) ↔
    sets (l.foldl step s) e ∨ Since step sets clears s l ∧ ¬ clears (l.foldl step s) e := by
  constructor
  · intro h
    obtain ⟨before, i, after, hsplit, hset, hkept⟩ := h
    rcases concat_eq_split.mp hsplit with ⟨rfl, rfl, rfl⟩ | ⟨mid, rfl, rfl⟩
    · exact .inl hset
    · refine .inr ⟨⟨before, i, mid, rfl, hset, fun mid' j rest hmid => ?_⟩, hkept mid e [] rfl⟩
      refine hkept mid' j (rest ++ [e]) ?_
      rw [hmid, List.append_assoc, List.cons_append]
  · intro h
    rcases h with hset | ⟨⟨before, i, after, rfl, hset, hkept⟩, hclear⟩
    · refine ⟨l, e, [], rfl, hset, fun mid j rest hnil => ?_⟩
      exact absurd hnil.symm (List.append_ne_nil_of_right_ne_nil _ (List.cons_ne_nil _ _))
    · refine ⟨before, i, after ++ [e], by rw [List.append_assoc, List.cons_append], hset, fun mid j rest hsplit => ?_⟩
      rcases concat_eq_split.mp hsplit with ⟨rfl, rfl, rfl⟩ | ⟨rest', -, rfl⟩
      · exact hclear
      · exact hkept mid j rest' rfl

end

end DualOptimistic.Data
