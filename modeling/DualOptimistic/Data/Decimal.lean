import Mathlib.Data.List.Basic
import Mathlib.Data.List.Infix

/-! Reading unsigned decimal numbers of a bounded type.

Digits are taken from the left, after a plus sign that may be there. A character that is no
digit stops the reading with one error, a value that reaches the bound with another, whichever
comes first (`parse_error_iff`); what is read are the numerals with a value below the bound
(`parse_ok_iff`). -/
namespace DualOptimistic.Data.Decimal

/-- What can be wrong with a number. -/
inductive ParseIntError where
  | empty
  | invalidDigit
  | posOverflow
deriving DecidableEq

def ParseIntError.text : ParseIntError → String
  | empty => "cannot parse integer from empty string"
  | invalidDigit => "invalid digit found in string"
  | posOverflow => "number too large to fit in target type"

/-- The value after one more digit. -/
def shift (n : Nat) (c : Char) : Nat := 10 * n + (c.toNat - '0'.toNat)

/-- The value of digits that follow others of value `n`. -/
def value (digits : List Char) (n : Nat) : Nat := digits.foldl shift n

/-- Read the digits, with `n` read so far. -/
def readDigits (bound : Nat) : List Char → Nat → Except ParseIntError Nat
  | [], n => .ok n
  | c :: rest, n =>
    if c.isDigit then
      if shift n c < bound then readDigits bound rest (shift n c) else .error .posOverflow
    else .error .invalidDigit

/-- What follows the plus sign, if there is one. -/
def unsigned : List Char → List Char
  | '+' :: digits => digits
  | s => s

/-- Parse a number below the bound. A plus sign alone is no number; a minus sign is no digit. -/
def parse (bound : Nat) (s : List Char) : Except ParseIntError Nat :=
  if s = [] then .error .empty
  else if s = ['+'] then .error .invalidDigit
  else readDigits bound (unsigned s) 0

/-! ### The digits -/

theorem le_value (digits : List Char) (n : Nat) : n ≤ value digits n := by
  induction digits generalizing n with
  | nil => exact le_refl n
  | cons c rest ih =>
    have hstep : n ≤ shift n c := by
      unfold shift
      omega
    exact hstep.trans (ih _)

theorem readDigits_ok_iff {bound : Nat} {digits : List Char} {n m : Nat} (hn : n < bound) :
    readDigits bound digits n = .ok m ↔ (∀ c ∈ digits, c.isDigit = true) ∧ value digits n = m ∧ m < bound := by
  induction digits generalizing n with
  | nil =>
    constructor
    · intro h
      obtain rfl := Except.ok.inj h
      exact ⟨fun c hc => absurd hc List.not_mem_nil, rfl, hn⟩
    · exact fun h => congrArg Except.ok h.2.1
  | cons c rest ih =>
    rw [readDigits, List.forall_mem_cons]
    by_cases hc : c.isDigit = true
    · rw [if_pos hc]
      by_cases hlt : shift n c < bound
      · rw [if_pos hlt, ih hlt]
        simp [hc, value]
      · rw [if_neg hlt]
        refine ⟨fun h => (by cases h), fun h => absurd ?_ hlt⟩
        have hle : shift n c ≤ value (c :: rest) n := le_value rest _
        omega
    · rw [if_neg hc]
      exact ⟨fun h => (by cases h), fun h => absurd h.1.1 hc⟩

/-- A reading that fails has read digits of a value below the bound, and then met a character that
is no digit, or a digit that takes the value to the bound. -/
theorem readDigits_error_iff {bound : Nat} {digits : List Char} {n : Nat} {e : ParseIntError} (hn : n < bound) :
    readDigits bound digits n = .error e ↔ ∃ before c after, digits = before ++ c :: after ∧
      (∀ x ∈ before, x.isDigit = true) ∧ value before n < bound ∧
      (c.isDigit = false ∧ e = .invalidDigit ∨
        c.isDigit = true ∧ bound ≤ shift (value before n) c ∧ e = .posOverflow) := by
  induction digits generalizing n with
  | nil =>
    refine ⟨fun h => (by cases h), fun h => ?_⟩
    obtain ⟨before, c, after, hsplit, -⟩ := h
    exact absurd hsplit.symm (List.append_ne_nil_of_right_ne_nil _ (List.cons_ne_nil c after))
  | cons c rest ih =>
    rw [readDigits]
    constructor
    · intro h
      split_ifs at h with hc hlt
      · obtain ⟨before, x, after, rfl, hdigits, hvalue, hlast⟩ := (ih hlt).mp h
        exact ⟨c :: before, x, after, rfl, List.forall_mem_cons.mpr ⟨hc, hdigits⟩, hvalue, hlast⟩
      · exact ⟨[], c, rest, rfl, fun x hx => absurd hx List.not_mem_nil, hn,
          .inr ⟨hc, Nat.not_lt.mp hlt, (Except.error.inj h).symm⟩⟩
      · exact ⟨[], c, rest, rfl, fun x hx => absurd hx List.not_mem_nil, hn,
          .inl ⟨Bool.not_eq_true _ ▸ hc, (Except.error.inj h).symm⟩⟩
    · intro h
      obtain ⟨before, x, after, hsplit, hdigits, hvalue, hlast⟩ := h
      cases before with
      | nil =>
        obtain ⟨rfl, rfl⟩ := List.cons.inj hsplit
        rcases hlast with ⟨hc, rfl⟩ | ⟨hc, hle, rfl⟩
        · rw [if_neg (by simp [hc])]
        · have hnot : ¬ shift n c < bound := Nat.not_lt.mpr hle
          rw [if_pos hc, if_neg hnot]
      | cons y before =>
        obtain ⟨rfl, rfl⟩ := List.cons.inj hsplit
        obtain ⟨hc, hdigits⟩ := List.forall_mem_cons.mp hdigits
        have hlt : shift n c < bound := (le_value before _).trans_lt hvalue
        rw [if_pos hc, if_pos hlt, ih hlt]
        exact ⟨before, x, after, rfl, hdigits, hvalue, hlast⟩

/-! ### Numerals -/

/-- At least one digit, after a plus sign or not. -/
structure Numeral (s : List Char) (n : Nat) : Prop where
  nonempty : unsigned s ≠ []
  digits : ∀ c ∈ unsigned s, c.isDigit = true
  value_eq : value (unsigned s) 0 = n

/-- The digits of a number stop at `c`, before they reach the bound. -/
def StopsAt (bound : Nat) (s before : List Char) (c : Char) : Prop :=
  (∃ after, unsigned s = before ++ c :: after) ∧ (∀ x ∈ before, x.isDigit = true) ∧ value before 0 < bound

/-- What an error says of what was read. -/
def Explains (bound : Nat) (s : List Char) : ParseIntError → Prop
  | .empty => s = []
  | .invalidDigit => s = ['+'] ∨ ∃ before c, StopsAt bound s before c ∧ c.isDigit = false
  | .posOverflow => ∃ before c, StopsAt bound s before c ∧ c.isDigit = true ∧ bound ≤ shift (value before 0) c

theorem parse_ok_iff {bound : Nat} (hbound : 0 < bound) {s : List Char} {n : Nat} :
    parse bound s = .ok n ↔ Numeral s n ∧ n < bound := by
  unfold parse
  split_ifs with hempty hsign
  · subst hempty
    exact ⟨fun h => (by cases h), fun h => absurd rfl h.1.nonempty⟩
  · subst hsign
    exact ⟨fun h => (by cases h), fun h => absurd rfl h.1.nonempty⟩
  · have hne : unsigned s ≠ [] := by
      intro hnil
      unfold unsigned at hnil
      split at hnil
      · exact hsign (hnil ▸ rfl)
      · exact hempty hnil
    rw [readDigits_ok_iff hbound]
    exact ⟨fun h => ⟨⟨hne, h.1, h.2.1⟩, h.2.2⟩, fun h => ⟨h.1.digits, h.1.value_eq, h.2⟩⟩

theorem not_stopsAt_nil {bound : Nat} {s before : List Char} {c : Char} (hs : unsigned s = []) :
    ¬ StopsAt bound s before c := by
  intro h
  obtain ⟨after, hafter⟩ := h.1
  rw [hs] at hafter
  exact absurd hafter.symm (List.append_ne_nil_of_right_ne_nil _ (List.cons_ne_nil c after))

theorem parse_error_iff {bound : Nat} (hbound : 0 < bound) {s : List Char} {e : ParseIntError} :
    parse bound s = .error e ↔ Explains bound s e := by
  unfold parse
  split_ifs with hempty hsign
  · subst hempty
    rw [Except.error.injEq]
    constructor
    · rintro rfl
      rfl
    · intro h
      cases e with
      | empty => rfl
      | invalidDigit =>
        rcases h with h | ⟨before, c, hstops, -⟩
        · cases h
        · exact absurd hstops (not_stopsAt_nil rfl)
      | posOverflow =>
        obtain ⟨before, c, hstops, -⟩ := h
        exact absurd hstops (not_stopsAt_nil rfl)
  · subst hsign
    rw [Except.error.injEq]
    constructor
    · rintro rfl
      exact .inl rfl
    · intro h
      cases e with
      | empty => cases h
      | invalidDigit => rfl
      | posOverflow =>
        obtain ⟨before, c, hstops, -⟩ := h
        exact absurd hstops (not_stopsAt_nil rfl)
  · rw [readDigits_error_iff hbound]
    constructor
    · intro h
      obtain ⟨before, c, after, hsplit, hdigits, hvalue, hlast⟩ := h
      rcases hlast with ⟨hc, rfl⟩ | ⟨hc, hle, rfl⟩
      · exact .inr ⟨before, c, ⟨⟨after, hsplit⟩, hdigits, hvalue⟩, hc⟩
      · exact ⟨before, c, ⟨⟨after, hsplit⟩, hdigits, hvalue⟩, hc, hle⟩
    · intro h
      cases e with
      | empty => exact absurd h hempty
      | invalidDigit =>
        rcases h with h | ⟨before, c, ⟨⟨after, hsplit⟩, hdigits, hvalue⟩, hc⟩
        · exact absurd h hsign
        · exact ⟨before, c, after, hsplit, hdigits, hvalue, .inl ⟨hc, rfl⟩⟩
      | posOverflow =>
        obtain ⟨before, c, ⟨⟨after, hsplit⟩, hdigits, hvalue⟩, hc, hle⟩ := h
        exact ⟨before, c, after, hsplit, hdigits, hvalue, .inr ⟨hc, hle, rfl⟩⟩

/-- **A number that fits is read back** from its digits. -/
theorem parse_toDigits {bound n : Nat} (h : n < bound) : parse bound (Nat.toDigits 10 n) = .ok n := by
  have hdigits : ∀ c ∈ Nat.toDigits 10 n, c.isDigit = true := fun c hc =>
    Nat.isDigit_of_mem_toDigits (by decide) (by decide) hc
  have hunsigned : unsigned (Nat.toDigits 10 n) = Nat.toDigits 10 n := by
    unfold unsigned
    split
    · rename_i digits hplus
      rw [hplus] at hdigits
      exact absurd (hdigits '+' (List.mem_cons_self ..)) (by decide)
    · rfl
  rw [parse_ok_iff (Nat.zero_lt_of_lt h)]
  refine ⟨⟨?_, ?_, ?_⟩, h⟩
  · rw [hunsigned]
    exact Nat.toDigits_ne_nil
  · rw [hunsigned]
    exact hdigits
  · rw [hunsigned]
    exact Nat.ofDigitChars_ten_toDigits

end DualOptimistic.Data.Decimal
