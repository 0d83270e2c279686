import Mathlib.Data.List.Infix
import Mathlib.Data.Nat.Find
import Mathlib.Order.Basic

/-! Deciding the waves of a protocol, directly or through later waves.

Every wave has candidate leaders. A view may skip a wave or commit a leader directly;
otherwise the first later wave that is committed and not skipped decides, by whether
its leader has seen a certificate (`Decided`). If certificates are unique, exclude
skips, and a direct commit leaves one in sight of every later leader, then all views
decide alike (`Decided.agree`), whatever they have not decided yet. A pass from the
last wave down that uses the statuses above finds every decision (`matches_status`). -/
namespace DualOptimistic.Data

universe u

/-- What does not depend on the view: the candidate leaders of each wave, the leaders
that have a certificate, and those a later leader has seen a certificate of. -/
structure WaveRule (β : Type u) where
  leader : ℕ → β → Prop
  certificate : ℕ → β → Prop
  seen : β → ℕ → β → Prop
  seen_leader : ∀ {a w b}, seen a w b → leader w b
  seen_certificate : ∀ {a w b}, seen a w b → certificate w b
  unique : ∀ {w b b'}, certificate w b → certificate w b' → b = b'

namespace WaveRule
variable {β : Type u}

/-- What a view decides directly. -/
structure View (R : WaveRule β) where
  skips : ℕ → Prop
  commits : ℕ → β → Prop
  commits_leader : ∀ {w b}, commits w b → R.leader w b
  commits_certificate : ∀ {w b}, commits w b → R.certificate w b
  skips_certificate : ∀ {w b}, skips w → ¬ R.certificate w b
  commits_seen : ∀ {w b a A}, commits w b → w < a → R.leader a A → R.seen A w b

/-- The decisions of a view: `none` skips the wave. -/
inductive Decided {R : WaveRule β} (V : View R) : ℕ → Option β → Prop
  | skip {w : ℕ} : V.skips w → Decided V w none
  | commit {w : ℕ} {b : β} : V.commits w b → Decided V w (some b)
  | seen {w a : ℕ} {A b : β} : w < a → Decided V a (some A) →
      (∀ x, w < x → x < a → Decided V x none) → R.seen A w b → Decided V w (some b)
  | unseen {w a : ℕ} {A : β} : w < a → Decided V a (some A) →
      (∀ x, w < x → x < a → Decided V x none) → (∀ b, ¬ R.seen A w b) → Decided V w none

variable {R : WaveRule β} {V V' : View R}

theorem Decided.leader {w : ℕ} {b : β} (h : Decided V w (some b)) : R.leader w b := by
  cases h with
  | commit h => exact V.commits_leader h
  | seen _ _ _ hseen => exact R.seen_leader hseen

/-- A directly skipped wave is committed in no view. -/
theorem Decided.none_of_skips {w : ℕ} {v : Option β} (hs : V.skips w) (h : Decided V' w v) : v = none := by
  cases h with
  | skip => rfl
  | commit h => exact absurd (V'.commits_certificate h) (V.skips_certificate hs)
  | seen _ _ _ hseen => exact absurd (R.seen_certificate hseen) (V.skips_certificate hs)
  | unseen => rfl

/-- A directly committed leader is what every view decides. -/
theorem Decided.some_of_commits {w : ℕ} {b : β} {v : Option β} (hc : V.commits w b)
    (h : Decided V' w v) : v = some b := by
  cases h with
  | skip hs => exact absurd (V.commits_certificate hc) (V'.skips_certificate hs)
  | commit h => rw [R.unique (V'.commits_certificate h) (V.commits_certificate hc)]
  | seen _ _ _ hseen => rw [R.unique (R.seen_certificate hseen) (V.commits_certificate hc)]
  | unseen hlt hanchor _ hno => exact absurd (V.commits_seen hc hlt hanchor.leader) (hno b)

/-- A wave decided through an anchor is decided by the same anchor wherever one decides it. -/
theorem Decided.of_anchor {w a : ℕ} {A : β} {v : Option β} (hlt : w < a)
    (hanchor : ∀ {v'}, Decided V' a v' → some A = v')
    (hbetween : ∀ x, w < x → x < a → ∀ {v'}, Decided V' x v' → none = v') (h : Decided V' w v) :
    V'.skips w ∨ (∃ b, V'.commits w b) ∨ (∃ b, R.seen A w b ∧ v = some b) ∨
      (∀ b, ¬ R.seen A w b) ∧ v = none := by
  have hsame : ∀ {a' A'}, w < a' → Decided V' a' (some A') →
      (∀ x, w < x → x < a' → Decided V' x none) → A' = A := by
    intro a' A' hlt' hanchor' hbetween'
    rcases lt_trichotomy a a' with hcmp | rfl | hcmp
    · cases hanchor (hbetween' a hlt hcmp)
    · exact (Option.some.inj (hanchor hanchor')).symm
    · cases hbetween a' hlt' hcmp hanchor'
  cases h with
  | skip hs => exact .inl hs
  | commit hc => exact .inr (.inl ⟨_, hc⟩)
  | seen hlt' hanchor' hbetween' hseen =>
    rw [hsame hlt' hanchor' hbetween'] at hseen
    exact .inr (.inr (.inl ⟨_, hseen, rfl⟩))
  | unseen hlt' hanchor' hbetween' hno =>
    rw [hsame hlt' hanchor' hbetween'] at hno
    exact .inr (.inr (.inr ⟨hno, rfl⟩))

/-- **Agreement.** Two views that both decide a wave decide it alike. -/
theorem Decided.agree {w : ℕ} {v v' : Option β} (h : Decided V w v) (h' : Decided V' w v') : v = v' := by
  induction h generalizing v' with
  | skip hs => exact (h'.none_of_skips hs).symm
  | commit hc => exact (h'.some_of_commits hc).symm
  | @seen w a A b hlt hanchor hbetween hseen ihanchor ihbetween =>
    rcases Decided.of_anchor hlt ihanchor ihbetween h' with hs | ⟨b', hc⟩ | ⟨b', hseen', hv⟩ | ⟨hno, -⟩
    · exact absurd (R.seen_certificate hseen) (V'.skips_certificate hs)
    · rw [h'.some_of_commits hc, R.unique (R.seen_certificate hseen) (V'.commits_certificate hc)]
    · rw [hv, R.unique (R.seen_certificate hseen) (R.seen_certificate hseen')]
    · exact absurd hseen (hno b)
  | @unseen w a A hlt hanchor hbetween hno ihanchor ihbetween =>
    rcases Decided.of_anchor hlt ihanchor ihbetween h' with hs | ⟨b', hc⟩ | ⟨b', hseen', -⟩ | ⟨-, hv⟩
    · exact (h'.none_of_skips hs).symm
    · exact absurd (V'.commits_seen hc hlt hanchor.leader) (hno b')
    · exact absurd hseen' (hno b')
    · exact hv.symm

/-- A view that sees more decides at least as much. -/
theorem Decided.mono (hskips : ∀ w, V.skips w → V'.skips w)
    (hcommits : ∀ w b, V.commits w b → V'.commits w b) {w : ℕ} {v : Option β} (h : Decided V w v) :
    Decided V' w v := by
  induction h with
  | skip hs => exact .skip (hskips _ hs)
  | commit hc => exact .commit (hcommits _ _ hc)
  | seen hlt _ _ hseen ihanchor ihbetween => exact .seen hlt ihanchor ihbetween hseen
  | unseen hlt _ _ hno ihanchor ihbetween => exact .unseen hlt ihanchor ihbetween hno

/-- **Below a committed wave everything is decided**, by the first wave above that is committed. -/
theorem Decided.downward {w a : ℕ} {A : β} (h : Decided V a (some A)) (hle : w ≤ a) : ∃ v, Decided V w v := by
  -- from `a` down: the waves above `w` are decided already
  induction hn : a - w using Nat.strong_induction_on generalizing w with
  | _ n ih =>
    rcases Nat.eq_or_lt_of_le hle with rfl | hlt
    · exact ⟨_, h⟩
    · have hex : ∃ x, w < x ∧ ∃ B, Decided V x (some B) := ⟨a, hlt, A, h⟩
      classical
      obtain ⟨hx, B, hB⟩ := Nat.find_spec hex
      have hbetween : ∀ x, w < x → x < Nat.find hex → Decided V x none := by
        intro x hwx hxa
        have hxle : x ≤ a := hxa.le.trans (Nat.find_min' hex ⟨hlt, A, h⟩)
        obtain ⟨v, hv⟩ := ih (a - x) (by omega) hxle rfl
        cases v with
        | none => exact hv
        | some b => exact absurd ⟨hwx, b, hv⟩ (Nat.find_min hex hxa)
      by_cases hseen : ∃ b, R.seen B w b
      · obtain ⟨b, hb⟩ := hseen
        exact ⟨_, .seen hx hB hbetween hb⟩
      · exact ⟨_, .unseen hx hB hbetween fun b hb => hseen ⟨b, hb⟩⟩

/-! ### The pass from the last wave down -/

/-- The statuses of the waves from `w` on, `none` where undecided: exactly the decisions. -/
def Matches (V : View R) (w : ℕ) (statuses : List (Option (Option β))) : Prop :=
  ∀ i v, statuses[i]? = some (some v) ↔ Decided V (w + i) v

/-- The first leader that is not skipped, if it is committed. -/
def anchor : List (Option (Option β)) → Option β
  | [] => none
  | some (some A) :: _ => some A
  | some none :: rest => anchor rest
  | none :: _ => none

theorem Matches.tail {w : ℕ} {s : Option (Option β)} {statuses : List (Option (Option β))}
    (h : Matches V w (s :: statuses)) : Matches V (w + 1) statuses := by
  intro i v
  have := h (i + 1) v
  rwa [List.getElem?_cons_succ, Nat.add_comm i 1, ← Nat.add_assoc] at this

theorem Matches.head {w : ℕ} {s : Option (Option β)} {statuses : List (Option (Option β))}
    (h : Matches V w (s :: statuses)) (v : Option β) : s = some v ↔ Decided V w v := by
  have := h 0 v
  rwa [List.getElem?_cons_zero, Option.some.injEq, Nat.add_zero] at this

theorem Matches.cons {w : ℕ} {s : Option (Option β)} {statuses : List (Option (Option β))}
    (hs : ∀ v, s = some v ↔ Decided V w v) (h : Matches V (w + 1) statuses) :
    Matches V w (s :: statuses) := by
  intro i v
  cases i with
  | zero => rw [List.getElem?_cons_zero, Option.some.injEq, Nat.add_zero, hs]
  | succ i => rw [List.getElem?_cons_succ, h i v, Nat.add_assoc, Nat.add_comm 1 i]

/-- The anchor found is a committed leader with nothing but skipped waves before it. -/
theorem Matches.anchor_eq_some {w : ℕ} {statuses : List (Option (Option β))}
    (h : Matches V w statuses) {A : β} :
    anchor statuses = some A ↔
      ∃ a, w ≤ a ∧ Decided V a (some A) ∧ ∀ x, w ≤ x → x < a → Decided V x none := by
  induction statuses generalizing w with
  | nil =>
    constructor
    · intro hA
      cases hA
    · intro hA
      obtain ⟨a, hle, hdec, -⟩ := hA
      have hnone := (h (a - w) (some A)).mpr (by rwa [Nat.add_sub_cancel' hle])
      cases hnone
  | cons s rest ih =>
    have hhead := h.head
    match s with
    | some (some B) =>
      have hB : Decided V w (some B) := (hhead _).mp rfl
      constructor
      · intro hA
        rw [← Option.some.inj hA]
        exact ⟨w, le_rfl, hB, fun x hx hlt => absurd hx (not_le.mpr hlt)⟩
      · intro hA
        obtain ⟨a, hle, hdec, hbetween⟩ := hA
        rcases Nat.eq_or_lt_of_le hle with rfl | hlt
        · exact hB.agree hdec
        · cases hB.agree (hbetween w le_rfl hlt)
    | some none =>
      have hskip : Decided V w none := (hhead _).mp rfl
      rw [anchor, ih h.tail]
      constructor
      · intro hA
        obtain ⟨a, hle, hdec, hbetween⟩ := hA
        refine ⟨a, Nat.le_of_succ_le hle, hdec, fun x hx hlt => ?_⟩
        rcases Nat.eq_or_lt_of_le hx with rfl | hx
        · exact hskip
        · exact hbetween x hx hlt
      · intro hA
        obtain ⟨a, hle, hdec, hbetween⟩ := hA
        rcases Nat.eq_or_lt_of_le hle with rfl | hlt
        · cases hskip.agree hdec
        · exact ⟨a, hlt, hdec, fun x hx => hbetween x (Nat.le_of_succ_le hx)⟩
    | none =>
      constructor
      · intro hA
        cases hA
      · intro hA
        obtain ⟨a, hle, hdec, hbetween⟩ := hA
        rcases Nat.eq_or_lt_of_le hle with rfl | hlt
        · cases (hhead _).mpr hdec
        · cases (hhead _).mpr (hbetween w le_rfl hlt)

/-- **The pass.** A direct status if there is one, else what the anchor has seen, is the
decision of the wave. -/
theorem Matches.status {w : ℕ} {statuses : List (Option (Option β))} (h : Matches V (w + 1) statuses)
    {direct : Option (Option β)} {indirect : β → Option β}
    (hdirect : ∀ v, direct = some v → v = none ∧ V.skips w ∨ ∃ b, v = some b ∧ V.commits w b)
    (hskips : V.skips w → direct ≠ none) (hcommits : ∀ b, V.commits w b → direct ≠ none)
    (hindirect : ∀ A b, anchor statuses = some A → (indirect A = some b ↔ R.seen A w b)) (v : Option β) :
    direct.or ((anchor statuses).map indirect) = some v ↔ Decided V w v := by
  have hsound : ∀ v, direct.or ((anchor statuses).map indirect) = some v → Decided V w v := by
    intro v hv
    rcases Option.or_eq_some_iff.mp hv with hv | ⟨-, hv⟩
    · rcases hdirect v hv with ⟨rfl, hs⟩ | ⟨b, rfl, hc⟩
      · exact .skip hs
      · exact .commit hc
    · obtain ⟨A, hA, hind⟩ := Option.map_eq_some_iff.mp hv
      obtain ⟨a, hle, hdec, hbetween⟩ := h.anchor_eq_some.mp hA
      cases v with
      | some b => exact .seen hle hdec hbetween ((hindirect A b hA).mp hind)
      | none =>
        refine .unseen hle hdec hbetween fun b hb => ?_
        rw [(hindirect A b hA).mpr hb] at hind
        cases hind
  refine ⟨hsound v, fun hdec => ?_⟩
  -- whatever the pass finds is the decision, so it is enough that it finds one
  suffices hfound : direct.or ((anchor statuses).map indirect) ≠ none by
    obtain ⟨v', hv'⟩ := Option.ne_none_iff_exists'.mp hfound
    rw [hv', (hsound v' hv').agree hdec]
  have hanchored : ∀ {a A}, w < a → Decided V a (some A) → (∀ x, w < x → x < a → Decided V x none) →
      direct.or ((anchor statuses).map indirect) ≠ none := by
    intro a A hlt hA hbetween
    rw [h.anchor_eq_some.mpr ⟨a, hlt, hA, fun x hx => hbetween x hx⟩]
    cases direct <;> simp
  cases hdec with
  | skip hs =>
    have := hskips hs
    cases direct <;> simp_all
  | commit hc =>
    have := hcommits _ hc
    cases direct <;> simp_all
  | seen hlt hA hbetween _ => exact hanchored hlt hA hbetween
  | unseen hlt hA hbetween _ => exact hanchored hlt hA hbetween

end WaveRule

end DualOptimistic.Data
