import LlvmLibc.FPUtil.Arith
import Mathlib.Data.Real.Basic
import Mathlib.Tactic.LinearCombination

/-! Correct rounding (IEEE 754 §4.3), the specification the arithmetic of `Arith` meets.

Rounded downward, a real `v` is the greatest finite value of the format at or below it; rounded
upward, the least one at or above it; toward zero, the one of these two nearer zero; to nearest, a
finite value nearest to it and, when `v` lies halfway between two adjacent finite values, the one
that is an even multiple of their distance (`IsRounding`). The specification covers the range of
the finite values and says nothing about overflow.

Between two adjacent finite values `lo < hi` (`Adjacent`), a rounding depends only on the half of
`[lo, hi]` that `v` lies in: each mode gives the end `RoundingMode.lowerHalf` or
`RoundingMode.upperHalf` names (`Adjacent.isRounding_lower`, `Adjacent.isRounding_upper`), and
every correct rounding is that end (`Adjacent.eq_lower_of_isRounding`,
`Adjacent.eq_upper_of_isRounding`).

`round` refines the specification: `F.encode (F.round mode sign n e)` is `(-1)^sign * n * 2^e`
correctly rounded in `mode` whenever that value lies between two finite values
(`encode_round_isRounding`). So is the result of every operation that rounds its exact result once
(`add_isRounding`, `sub_isRounding`, `mul_isRounding`, `fma_isRounding`, `convert_isRounding`). -/

namespace LlvmLibc.FPUtil

namespace FloatProperties
variable (F : FloatProperties)

/-- `lo < hi` are adjacent finite values of `F`: no finite value lies strictly between them. -/
structure Adjacent (lo hi : ℚ) : Prop where
  finite_lo : F.FiniteValue lo
  finite_hi : F.FiniteValue hi
  lt : lo < hi
  gap : ∀ y, F.FiniteValue y → y ≤ lo ∨ hi ≤ y

/-- `r` is `v` rounded downward: the greatest finite value of `F` at or below `v`. -/
def IsRoundDown (v : ℝ) (r : ℚ) : Prop :=
  F.FiniteValue r ∧ (r : ℝ) ≤ v ∧ ∀ y, F.FiniteValue y → (y : ℝ) ≤ v → y ≤ r

/-- `r` is `v` rounded upward: the least finite value of `F` at or above `v`. -/
def IsRoundUp (v : ℝ) (r : ℚ) : Prop :=
  F.FiniteValue r ∧ v ≤ r ∧ ∀ y, F.FiniteValue y → v ≤ y → r ≤ y

/-- `r` is `v` rounded to nearest, ties to even: a finite value of `F` nearest to `v` and, when `v`
    is the midpoint of two adjacent finite values, the one that is an even multiple of their
    distance. -/
def IsNearestEven (v : ℝ) (r : ℚ) : Prop :=
  F.FiniteValue r ∧ (∀ y, F.FiniteValue y → |(r : ℝ) - v| ≤ |(y : ℝ) - v|) ∧
    ∀ lo hi, F.Adjacent lo hi → 2 * v = lo + hi → ∃ j : ℤ, r = 2 * j * (hi - lo)

/-- `r` is `v` correctly rounded in `mode`. -/
def IsRounding : RoundingMode → ℝ → ℚ → Prop
  | .toNearest, v, r => F.IsNearestEven v r
  | .upward, v, r => F.IsRoundUp v r
  | .downward, v, r => F.IsRoundDown v r
  | .towardZero, v, r => (0 ≤ v → F.IsRoundDown v r) ∧ (v ≤ 0 → F.IsRoundUp v r)

end FloatProperties

/-- The mode that rounds a value of either sign as `d` rounds a nonnegative one. -/
def Direction.toMode : Direction → RoundingMode
  | .towardZero => .downward
  | .awayFromZero => .upward
  | .nearestEven => .toNearest

/-- The end of `[lo, hi]` to which `mode` rounds the points of the lower half. -/
def RoundingMode.lowerHalf : RoundingMode → ℚ → ℚ → ℚ
  | .upward, _, hi => hi
  | .towardZero, lo, hi => if 0 ≤ lo then lo else hi
  | _, lo, _ => lo

/-- The end of `[lo, hi]` to which `mode` rounds the points of the upper half. -/
def RoundingMode.upperHalf : RoundingMode → ℚ → ℚ → ℚ
  | .downward, lo, _ => lo
  | .towardZero, lo, hi => if 0 ≤ lo then lo else hi
  | _, _, hi => hi

namespace FloatProperties
variable {F : FloatProperties} {v : ℝ} {r r' : ℚ}

theorem finiteValue_zero : F.FiniteValue 0 :=
  ⟨representable_zero, by rw [abs_zero]; exact two_zpow_pos _⟩

theorem finiteValue_two_zpow {k : ℤ} (h1 : F.minQuantum ≤ k) (h2 : k + F.mantissaWidth ≤ F.maxExponent) :
    F.FiniteValue (2 ^ k) := by
  simpa using finiteValue_int_mul (F := F) (m := 1) (q := k) h1 (by simp) h2

theorem IsRoundDown.unique (h : F.IsRoundDown v r) (h' : F.IsRoundDown v r') : r = r' :=
  le_antisymm (h'.2.2 r h.1 h.2.1) (h.2.2 r' h'.1 h'.2.1)

theorem IsRoundUp.unique (h : F.IsRoundUp v r) (h' : F.IsRoundUp v r') : r = r' :=
  le_antisymm (h.2.2 r' h'.1 h'.2.1) (h'.2.2 r h.1 h.2.1)

/-! ### The values of the format -/

theorem Adjacent.not_mem {lo hi : ℚ} (h : F.Adjacent lo hi) {y : ℚ} (hy : F.FiniteValue y) :
    ¬(lo < y ∧ y < hi) := fun ⟨h1, h2⟩ =>
  (h.gap y hy).elim (fun h' => absurd h1 (not_lt.mpr h')) (fun h' => absurd h2 (not_lt.mpr h'))

/-- A finite value is its own rounding in every mode. -/
theorem isRounding_self (h : F.FiniteValue r) (mode : RoundingMode) : F.IsRounding mode r r := by
  have hd : F.IsRoundDown r r := ⟨h, le_rfl, fun _ _ hy => by exact_mod_cast hy⟩
  have hu : F.IsRoundUp r r := ⟨h, le_rfl, fun _ _ hy => by exact_mod_cast hy⟩
  cases mode with
  | toNearest =>
    refine ⟨h, fun y _ => by simp, fun lo hi hadj hmid => ?_⟩
    have hmid' : 2 * r = lo + hi := by exact_mod_cast hmid
    exact absurd ⟨by linarith [hadj.lt], by linarith [hadj.lt]⟩ (hadj.not_mem h)
  | upward => exact hu
  | downward => exact hd
  | towardZero => exact ⟨fun _ => hd, fun _ => hu⟩

/-- A finite value has no rounding but itself. -/
theorem IsRounding.eq_self {v : ℚ} (hv : F.FiniteValue v) {mode : RoundingMode}
    (h : F.IsRounding mode v r) : r = v := by
  have hd : F.IsRoundDown v r → r = v := fun h =>
    le_antisymm (by exact_mod_cast h.2.1) (h.2.2 v hv le_rfl)
  have hu : F.IsRoundUp v r → r = v := fun h =>
    le_antisymm (h.2.2 v hv le_rfl) (by exact_mod_cast h.2.1)
  cases mode with
  | toNearest =>
    have := h.2.1 v hv
    rw [sub_self, abs_zero, abs_nonpos_iff, sub_eq_zero] at this
    exact_mod_cast this
  | upward => exact hu h
  | downward => exact hd h
  | towardZero => exact (le_total 0 (v : ℝ)).elim (fun h0 => hd (h.1 h0)) (fun h0 => hu (h.2 h0))

/-- Only a rounding to nearest or upward can lie above a nonnegative point. -/
theorem IsRounding.eq_toNearest_or_upward {mode : RoundingMode} (h : F.IsRounding mode v r)
    (h0 : 0 ≤ v) (hv : v < r) : mode = .toNearest ∨ mode = .upward := by
  cases mode with
  | toNearest => exact .inl rfl
  | upward => exact .inr rfl
  | downward => exact absurd h.2.1 (not_le.mpr hv)
  | towardZero => exact absurd (h.1 h0).2.1 (not_le.mpr hv)

/-! ### Negation -/

theorem Adjacent.neg {lo hi : ℚ} (h : F.Adjacent lo hi) : F.Adjacent (-hi) (-lo) :=
  ⟨h.finite_hi.neg, h.finite_lo.neg, neg_lt_neg h.lt, fun y hy =>
    (h.gap (-y) hy.neg).symm.imp (fun _ => by linarith) (fun _ => by linarith)⟩

theorem IsRoundDown.neg (h : F.IsRoundDown v r) : F.IsRoundUp (-v) (-r) :=
  ⟨h.1.neg, by push_cast; linarith [h.2.1], fun y hy hvy => by
    have := h.2.2 (-y) hy.neg (by push_cast; linarith)
    linarith⟩

theorem IsRoundUp.neg (h : F.IsRoundUp v r) : F.IsRoundDown (-v) (-r) :=
  ⟨h.1.neg, by push_cast; linarith [h.2.1], fun y hy hyv => by
    have := h.2.2 (-y) hy.neg (by push_cast; linarith)
    linarith⟩

theorem IsNearestEven.neg (h : F.IsNearestEven v r) : F.IsNearestEven (-v) (-r) := by
  refine ⟨h.1.neg, fun y hy => ?_, fun lo hi hadj hmid => ?_⟩
  · have := h.2.1 (-y) hy.neg
    rw [← abs_neg, ← abs_neg ((y : ℝ) - -v)]
    push_cast at this ⊢
    convert this using 2 <;> ring
  · obtain ⟨j, hj⟩ := h.2.2 (-hi) (-lo) hadj.neg (by push_cast; linarith)
    exact ⟨-j, by rw [neg_eq_iff_eq_neg, hj]; push_cast; ring⟩

/-- `-r` is `-v` rounded in the mode that rounds the other way. -/
theorem IsRounding.neg {mode : RoundingMode} (h : F.IsRounding mode v r) :
    F.IsRounding mode.neg (-v) (-r) := by
  cases mode with
  | toNearest => exact IsNearestEven.neg h
  | upward => exact IsRoundUp.neg h
  | downward => exact IsRoundDown.neg h
  | towardZero =>
    exact ⟨fun h0 => (h.2 (by linarith)).neg, fun h0 => (h.1 (by linarith)).neg⟩

/-! ### Between two adjacent values -/

section Cell
variable {lo hi : ℚ} (h : F.Adjacent lo hi)
include h

theorem Adjacent.zero_le_or_le_zero : 0 ≤ lo ∨ hi ≤ 0 := h.gap 0 finiteValue_zero

theorem Adjacent.isRoundDown (h1 : (lo : ℝ) ≤ v) (h2 : v < hi) : F.IsRoundDown v lo :=
  ⟨h.finite_lo, h1, fun y hy hyv => (h.gap y hy).resolve_right fun hy' => by
    have : (hi : ℝ) ≤ y := by exact_mod_cast hy'
    linarith⟩

theorem Adjacent.isRoundUp (h1 : (lo : ℝ) < v) (h2 : v ≤ hi) : F.IsRoundUp v hi :=
  ⟨h.finite_hi, h2, fun y hy hvy => (h.gap y hy).resolve_left fun hy' => by
    have : (y : ℝ) ≤ lo := by exact_mod_cast hy'
    linarith⟩

/-- A point strictly inside two cells makes them the same cell. -/
theorem Adjacent.eq_of_mem {lo' hi' : ℚ} (h' : F.Adjacent lo' hi') (hv : (lo : ℝ) < v ∧ v < hi)
    (hv' : (lo' : ℝ) < v ∧ v < hi') : lo' = lo ∧ hi' = hi := by
  have a : (lo' : ℝ) ≤ lo ∨ (hi : ℝ) ≤ lo' := by exact_mod_cast h.gap lo' h'.finite_lo
  have b : (hi' : ℝ) ≤ lo ∨ (hi : ℝ) ≤ hi' := by exact_mod_cast h.gap hi' h'.finite_hi
  have c : (lo : ℝ) ≤ lo' ∨ (hi' : ℝ) ≤ lo := by exact_mod_cast h'.gap lo h.finite_lo
  have d : (hi : ℝ) ≤ lo' ∨ (hi' : ℝ) ≤ hi := by exact_mod_cast h'.gap hi h.finite_hi
  obtain ⟨h1, h2⟩ := hv
  obtain ⟨h3, h4⟩ := hv'
  constructor
  · have : (lo' : ℝ) = lo := by rcases a with a | a <;> rcases c with c | c <;> linarith
    exact_mod_cast this
  · have : (hi' : ℝ) = hi := by rcases b with b | b <;> rcases d with d | d <;> linarith
    exact_mod_cast this

/-- The nearest finite values to a point strictly inside a cell are the ends of the cell. -/
theorem Adjacent.isNearestEven_of_le (hv : (lo : ℝ) < v ∧ v < hi) (hr : F.FiniteValue r)
    (hlo : |(r : ℝ) - v| ≤ v - lo) (hhi : |(r : ℝ) - v| ≤ hi - v)
    (htie : 2 * v = lo + hi → ∃ j : ℤ, r = 2 * j * (hi - lo)) : F.IsNearestEven v r := by
  refine ⟨hr, fun y hy => ?_, fun lo' hi' h' hmid => ?_⟩
  · rcases h.gap y hy with hy' | hy'
    · have : (y : ℝ) ≤ lo := by exact_mod_cast hy'
      exact hlo.trans (le_abs.mpr (.inr (by linarith)))
    · have : (hi : ℝ) ≤ y := by exact_mod_cast hy'
      exact hhi.trans (le_abs.mpr (.inl (by linarith)))
  · have hlt : (lo' : ℝ) < hi' := by exact_mod_cast h'.lt
    obtain ⟨rfl, rfl⟩ := h.eq_of_mem h' hv ⟨by linarith, by linarith⟩
    exact htie hmid

theorem Adjacent.isNearestEven_lo (hv : (lo : ℝ) < v) (hmid : 2 * v ≤ lo + hi)
    (htie : 2 * v = lo + hi → ∃ j : ℤ, lo = 2 * j * (hi - lo)) : F.IsNearestEven v lo := by
  have hlh : (lo : ℝ) < hi := by exact_mod_cast h.lt
  have habs : |(lo : ℝ) - v| = v - lo := by rw [abs_sub_comm]; exact abs_of_pos (by linarith)
  exact h.isNearestEven_of_le ⟨hv, by linarith⟩ h.finite_lo habs.le (by linarith) htie

theorem Adjacent.isNearestEven_hi (hv : v < hi) (hmid : (lo : ℝ) + hi ≤ 2 * v)
    (htie : 2 * v = lo + hi → ∃ j : ℤ, hi = 2 * j * (hi - lo)) : F.IsNearestEven v hi := by
  have hlh : (lo : ℝ) < hi := by exact_mod_cast h.lt
  have habs : |(hi : ℝ) - v| = hi - v := abs_of_pos (by linarith)
  exact h.isNearestEven_of_le ⟨by linarith, hv⟩ h.finite_hi (by linarith) habs.le htie

theorem Adjacent.isRounding_upper (hmid : (lo : ℝ) + hi < 2 * v) (hv : v < hi)
    (mode : RoundingMode) : F.IsRounding mode v (mode.upperHalf lo hi) := by
  have hlo : (lo : ℝ) < v := by linarith
  cases mode with
  | toNearest => exact h.isNearestEven_hi hv hmid.le fun h2 => absurd h2 (by linarith)
  | upward => exact h.isRoundUp hlo hv.le
  | downward => exact h.isRoundDown hlo.le hv
  | towardZero =>
    simp only [IsRounding, RoundingMode.upperHalf]
    rcases h.zero_le_or_le_zero with h0 | h0
    · have : (0 : ℝ) ≤ lo := by exact_mod_cast h0
      rw [if_pos h0]
      exact ⟨fun _ => h.isRoundDown hlo.le hv, fun _ => by linarith⟩
    · have : (hi : ℝ) ≤ 0 := by exact_mod_cast h0
      rw [if_neg (by linarith [h.lt])]
      exact ⟨fun _ => by linarith, fun _ => h.isRoundUp hlo hv.le⟩

/-- Every correct rounding of a point of the upper half is the end `upperHalf` names; a point at
    the midpoint is allowed when the lower end is not an even multiple of the distance. -/
theorem Adjacent.eq_upper_of_isRounding (hmid : (lo : ℝ) + hi ≤ 2 * v) (hv : v < hi)
    (htie : 2 * v = lo + hi → ¬∃ j : ℤ, lo = 2 * j * (hi - lo)) {mode : RoundingMode}
    (hr : F.IsRounding mode v r) : r = mode.upperHalf lo hi := by
  have hlh : (lo : ℝ) < hi := by exact_mod_cast h.lt
  have hlo : (lo : ℝ) < v := by linarith
  cases mode with
  | toNearest =>
    obtain ⟨hfin, hnear, htie'⟩ := hr
    have h1 := abs_le.mp ((hnear hi h.finite_hi).trans_eq (abs_of_pos (sub_pos.mpr hv)))
    show r = hi
    rcases h.gap r hfin with hr' | hr'
    · have : (r : ℝ) ≤ lo := by exact_mod_cast hr'
      have hrlo : r = lo := by exact_mod_cast (show (r : ℝ) = lo by linarith)
      have h2 : 2 * v = lo + hi := by linarith
      obtain ⟨j, hj⟩ := htie' lo hi h h2
      exact absurd ⟨j, hrlo ▸ hj⟩ (htie h2)
    · have : (hi : ℝ) ≤ r := by exact_mod_cast hr'
      exact_mod_cast (show (r : ℝ) = hi by linarith)
  | upward => exact IsRoundUp.unique hr (h.isRoundUp hlo hv.le)
  | downward => exact IsRoundDown.unique hr (h.isRoundDown hlo.le hv)
  | towardZero =>
    simp only [RoundingMode.upperHalf]
    rcases h.zero_le_or_le_zero with h0 | h0
    · have : (0 : ℝ) ≤ lo := by exact_mod_cast h0
      rw [if_pos h0]
      exact IsRoundDown.unique (hr.1 (by linarith)) (h.isRoundDown hlo.le hv)
    · have : (hi : ℝ) ≤ 0 := by exact_mod_cast h0
      rw [if_neg (by linarith [h.lt])]
      exact IsRoundUp.unique (hr.2 (by linarith)) (h.isRoundUp hlo hv.le)

/-- `lowerHalf` is `upperHalf` seen through the negation. -/
theorem Adjacent.lowerHalf_eq (mode : RoundingMode) :
    mode.lowerHalf lo hi = -(mode.neg.upperHalf (-hi) (-lo)) := by
  cases mode with
  | towardZero =>
    simp only [RoundingMode.lowerHalf, RoundingMode.neg, RoundingMode.upperHalf, neg_nonneg]
    rcases h.zero_le_or_le_zero with h0 | h0
    · rw [if_pos h0, if_neg (by linarith [h.lt]), neg_neg]
    · rw [if_neg (by linarith [h.lt]), if_pos h0, neg_neg]
  | _ => simp [RoundingMode.lowerHalf, RoundingMode.neg, RoundingMode.upperHalf]

theorem Adjacent.isRounding_lower (hmid : 2 * v < lo + hi) (hv : (lo : ℝ) < v)
    (mode : RoundingMode) : F.IsRounding mode v (mode.lowerHalf lo hi) := by
  have := (h.neg.isRounding_upper (v := -v) (by push_cast; linarith) (by push_cast; linarith)
    mode.neg).neg
  rwa [RoundingMode.neg_neg, neg_neg, ← h.lowerHalf_eq] at this

/-- Every correct rounding of a point of the lower half is the end `lowerHalf` names; a point at
    the midpoint is allowed when the upper end is not an even multiple of the distance. -/
theorem Adjacent.eq_lower_of_isRounding (hmid : 2 * v ≤ lo + hi) (hv : (lo : ℝ) < v)
    (htie : 2 * v = lo + hi → ¬∃ j : ℤ, hi = 2 * j * (hi - lo)) {mode : RoundingMode}
    (hr : F.IsRounding mode v r) : r = mode.lowerHalf lo hi := by
  have := h.neg.eq_upper_of_isRounding (v := -v) (by push_cast; linarith) (by push_cast; linarith)
    (fun h2 ⟨j, hj⟩ => htie (by push_cast at h2; linarith) ⟨-j, by push_cast at hj ⊢; linarith⟩)
    hr.neg
  rw [h.lowerHalf_eq, ← this, neg_neg]

/-- Two points of the upper half have the same roundings; the first may be the midpoint when the
    lower end is not an even multiple of the distance. -/
theorem Adjacent.isRounding_of_upper {w : ℝ} (hw : (lo : ℝ) + hi ≤ 2 * w) (hw' : w < hi)
    (htie : 2 * w = lo + hi → ¬∃ j : ℤ, lo = 2 * j * (hi - lo)) (hv : (lo : ℝ) + hi < 2 * v)
    (hv' : v < hi) {mode : RoundingMode} (hr : F.IsRounding mode w r) : F.IsRounding mode v r := by
  rw [h.eq_upper_of_isRounding hw hw' htie hr]
  exact h.isRounding_upper hv hv' mode

/-- Two points strictly inside the lower half have the same roundings. -/
theorem Adjacent.isRounding_of_lower {w : ℝ} (hw : 2 * w < lo + hi) (hw' : (lo : ℝ) < w)
    (hv : 2 * v < lo + hi) (hv' : (lo : ℝ) < v) {mode : RoundingMode} (hr : F.IsRounding mode w r) :
    F.IsRounding mode v r := by
  rw [h.eq_lower_of_isRounding hw.le hw' (fun h2 => absurd h2 hw.ne) hr]
  exact h.isRounding_lower hv hv' mode

end Cell

/-! ### `round` is correctly rounded -/

theorem finiteValue_of_le {b x : ℚ} (hb : F.FiniteValue b) (hx : F.Representable x) (h0 : 0 ≤ x)
    (hxb : x ≤ b) : F.FiniteValue x :=
  ⟨hx, by rw [abs_of_nonneg h0]; exact hxb.trans_lt ((le_abs_self b).trans_lt hb.2)⟩

section Refinement
variable {n : Nat} {e : Int} {b : ℚ} (hb : F.FiniteValue b) (hvb : (n : ℚ) * 2 ^ e ≤ b)
include hb hvb

/-- An inexact magnitude lies between two adjacent finite values: the multiples of the quantum
    below and above it. -/
theorem adjacent_roundMag
    (hlt : ((F.roundMag .towardZero n e).1 : ℚ) * 2 ^ F.quantum n e < n * 2 ^ e) :
    F.Adjacent ((F.roundMag .towardZero n e).1 * 2 ^ F.quantum n e)
      (((F.roundMag .towardZero n e).1 + 1) * 2 ^ F.quantum n e) := by
  have hlo := F.representable_roundMag n e .towardZero
  have hhi := F.representable_roundMag n e .awayFromZero
  rw [roundMag_snd] at hlo hhi
  rw [roundMag_awayFromZero_of_lt hlt, Nat.cast_succ] at hhi
  have hle := roundMag_towardZero_succ_le hb.1 hlt hvb
  refine ⟨finiteValue_of_le hb hlo (by positivity) ((F.roundMag_towardZero_le n e).1.trans hvb),
    finiteValue_of_le hb hhi (by positivity) hle,
    mul_lt_mul_of_pos_right (lt_add_one _) (two_zpow_pos _), fun y hy => ?_⟩
  rcases le_total y (n * 2 ^ e) with h | h
  · exact .inl (le_roundMag_towardZero hy.1 h)
  · exact .inr (roundMag_towardZero_succ_le hy.1 hlt h)

/-- In each direction, the rounded magnitude is the magnitude correctly rounded in the mode of
    that direction. -/
theorem roundMag_isRounding (d : Direction) :
    F.IsRounding d.toMode ((n * 2 ^ e : ℚ) : ℝ) ((F.roundMag d n e).1 * 2 ^ (F.roundMag d n e).2) := by
  rw [roundMag_snd]
  obtain ⟨hle, hlt'⟩ := F.roundMag_towardZero_le n e
  by_cases hlt : ((F.roundMag .towardZero n e).1 : ℚ) * 2 ^ F.quantum n e < n * 2 ^ e
  · have hadj := adjacent_roundMag hb hvb hlt
    have hlo : (((F.roundMag .towardZero n e).1 * 2 ^ F.quantum n e : ℚ) : ℝ) < (n * 2 ^ e : ℚ) := by
      exact_mod_cast hlt
    have hhi : ((n * 2 ^ e : ℚ) : ℝ) < (((F.roundMag .towardZero n e).1 + 1) * 2 ^ F.quantum n e : ℚ) := by
      exact_mod_cast hlt'
    have hq := two_zpow_pos (F.quantum n e)
    cases d with
    | towardZero => exact hadj.isRoundDown hlo.le hhi
    | awayFromZero =>
      rw [roundMag_awayFromZero_of_lt hlt, Nat.cast_succ]
      exact hadj.isRoundUp hlo hhi.le
    | nearestEven =>
      rw [roundMag_nearestEven_eq]
      split_ifs with hc
      · rw [Nat.cast_succ]
        refine hadj.isNearestEven_hi hhi ?_ fun h2 => ?_
        · have : (F.roundMag .towardZero n e).1 * 2 ^ F.quantum n e +
              ((F.roundMag .towardZero n e).1 + 1) * 2 ^ F.quantum n e ≤ 2 * ((n : ℚ) * 2 ^ e) := by
            rcases hc with hc | ⟨hc, -⟩ <;> linarith
          exact_mod_cast this
        · have h2' : 2 * ((n : ℚ) * 2 ^ e) = (F.roundMag .towardZero n e).1 * 2 ^ F.quantum n e +
              ((F.roundMag .towardZero n e).1 + 1) * 2 ^ F.quantum n e := by exact_mod_cast h2
          obtain hc | ⟨-, hodd⟩ := hc
          · linarith
          · obtain ⟨k, hk⟩ : ∃ k, (F.roundMag .towardZero n e).1 + 1 = 2 * k :=
              ⟨((F.roundMag .towardZero n e).1 + 1) / 2, by omega⟩
            have hk' : ((F.roundMag .towardZero n e).1 : ℚ) + 1 = 2 * k := by exact_mod_cast hk
            exact ⟨k, by push_cast; linear_combination (2 : ℚ) ^ F.quantum n e * hk'⟩
      · push_neg at hc
        refine hadj.isNearestEven_lo hlo ?_ fun h2 => ?_
        · have : 2 * ((n : ℚ) * 2 ^ e) ≤ (F.roundMag .towardZero n e).1 * 2 ^ F.quantum n e +
              ((F.roundMag .towardZero n e).1 + 1) * 2 ^ F.quantum n e := by linarith [hc.1]
          exact_mod_cast this
        · have h2' : 2 * ((n : ℚ) * 2 ^ e) = (F.roundMag .towardZero n e).1 * 2 ^ F.quantum n e +
              ((F.roundMag .towardZero n e).1 + 1) * 2 ^ F.quantum n e := by exact_mod_cast h2
          have heven := hc.2 (by linarith)
          obtain ⟨k, hk⟩ : ∃ k, (F.roundMag .towardZero n e).1 = 2 * k :=
            ⟨(F.roundMag .towardZero n e).1 / 2, by omega⟩
          have hk' : ((F.roundMag .towardZero n e).1 : ℚ) = 2 * k := by exact_mod_cast hk
          exact ⟨k, by push_cast; linear_combination (2 : ℚ) ^ F.quantum n e * hk'⟩
  · have heq : ((F.roundMag .towardZero n e).1 : ℚ) * 2 ^ F.quantum n e = n * 2 ^ e :=
      le_antisymm hle (not_lt.mp hlt)
    have hrep : F.Representable (n * 2 ^ e) := by
      have := F.representable_roundMag n e .towardZero
      rwa [roundMag_snd, heq] at this
    rw [← roundMag_snd F n e d, roundMag_exact d hrep]
    exact isRounding_self (finiteValue_of_le hb hrep (by positivity) hvb) _

end Refinement

/-- A nonnegative value rounded in the direction `mode` gives sign `+` is rounded in `mode`. -/
theorem isRounding_of_toMode {M : ℚ} (hM : 0 ≤ M) (mode : RoundingMode) {r : ℚ}
    (h : F.IsRounding (mode.direction false).toMode M r) : F.IsRounding mode M r := by
  cases mode with
  | towardZero =>
    refine ⟨fun _ => h, fun h0 => ?_⟩
    obtain rfl : M = 0 := le_antisymm (by exact_mod_cast h0) hM
    obtain rfl : r = 0 :=
      IsRounding.eq_self finiteValue_zero (show F.IsRounding .downward ((0 : ℚ) : ℝ) r from h)
    exact isRounding_self finiteValue_zero .upward
  | _ => exact h

/-- Below a finite value, the exact magnitude is rounded without overflow: `round` returns the
    rounded magnitude of the direction of `mode` and `sign`, and its pattern has that value. -/
theorem toRat_encode_round (mode : RoundingMode) (sign : Bool) {n : Nat} {e : Int} {b : ℚ}
    (hb : F.FiniteValue b) (hvb : (n : ℚ) * 2 ^ e ≤ b) :
    (F.encode (F.round mode sign n e)).isInfOrNan = false ∧
    (F.encode (F.round mode sign n e)).toRat = (FPValue.finite sign
      (F.roundMag (mode.direction sign) n e).1 (F.roundMag (mode.direction sign) n e).2).toRat := by
  have hI := roundMag_mem_Icc (mode.direction sign) representable_zero hb.1 (by positivity) hvb
  have hround := round_of_lt mode sign (hI.2.trans_lt ((le_abs_self b).trans_lt hb.2))
  obtain ⟨m, q, hr, henc⟩ :=
    (round_cases (n := n) (e := e) mode sign).resolve_left (by rw [hround]; simp)
  rw [hround] at hr ⊢
  obtain ⟨rfl, rfl⟩ : _ = m ∧ _ = q := by simpa using hr
  obtain ⟨m', q', hd, hv⟩ := FPBits.toFPValue_encode sign henc
  exact ⟨FPBits.isInfOrNan_eq_false_of_finite hd,
    by rw [FPBits.toRat, hd, FPValue.toRat, FPValue.toRat, hv]⟩

/-- `round` is correctly rounded: between two finite values, `(-1)^sign * n * 2^e` is rounded in
    `mode` to the value of `F.encode (F.round mode sign n e)`. -/
theorem encode_round_isRounding (mode : RoundingMode) (sign : Bool) (n : Nat) (e : Int) {a b : ℚ}
    (ha : F.FiniteValue a) (hb : F.FiniteValue b) (hav : a ≤ (FPValue.finite sign n e).toRat)
    (hvb : (FPValue.finite sign n e).toRat ≤ b) :
    F.IsRounding mode ((FPValue.finite sign n e).toRat : ℚ) (F.encode (F.round mode sign n e)).toRat := by
  cases sign
  · simp only [FPValue.toRat_finite_false] at hvb ⊢
    rw [(toRat_encode_round mode false hb hvb).2, FPValue.toRat_finite_false]
    exact isRounding_of_toMode (by positivity) mode (roundMag_isRounding hb hvb _)
  · simp only [FPValue.toRat_finite_true] at hav ⊢
    have hva : (n : ℚ) * 2 ^ e ≤ -a := by linarith
    rw [(toRat_encode_round mode true ha.neg hva).2, FPValue.toRat_finite_true,
      ← RoundingMode.direction_neg, Rat.cast_neg]
    have := (isRounding_of_toMode (by positivity) mode.neg (roundMag_isRounding ha.neg hva _)).neg
    rwa [RoundingMode.neg_neg] at this

/-- A sum of finite data between two finite values is correctly rounded. -/
theorem addFinite_isRounding (mode : RoundingMode) (s : Bool) (m : Nat) (e : Int) (t : Bool)
    (n : Nat) (f : Int) {a b : ℚ} (ha : F.FiniteValue a) (hb : F.FiniteValue b)
    (hav : a ≤ (FPValue.finite s m e).toRat + (FPValue.finite t n f).toRat)
    (hvb : (FPValue.finite s m e).toRat + (FPValue.finite t n f).toRat ≤ b) :
    F.IsRounding mode ((FPValue.finite s m e).toRat + (FPValue.finite t n f).toRat : ℚ)
      (F.addFinite mode s m e t n f).toRat := by
  rw [← toRat_alignedSum] at hav hvb ⊢
  unfold addFinite; dsimp only
  by_cases h0 : (alignedSum s m e t n f).2 = 0
  · have hz : (FPValue.finite (alignedSum s m e t n f).1 (alignedSum s m e t n f).2
        (min e f)).toRat = 0 := by rw [h0]; simp [FPValue.toRat]
    rw [if_pos h0, (FPBits.within_zero (F := F) _ le_rfl le_rfl).toRat_eq, hz]
    exact isRounding_self finiteValue_zero mode
  · rw [if_neg h0]
    exact encode_round_isRounding mode _ _ _ ha hb hav hvb

end FloatProperties

/-! ### The operations are correctly rounded -/

namespace FPBits
variable {F : FloatProperties} (mode : RoundingMode) {x y z : FPBits F} {a b : ℚ}

theorem toRat_of_finite {s : Bool} {m : Nat} {e : Int} (h : x.toFPValue = .finite s m e) :
    x.toRat = (FPValue.finite s m e).toRat := by
  rw [toRat, h]

section IsRounding
variable (hx : x.isInfOrNan = false) (hy : y.isInfOrNan = false)
  (ha : F.FiniteValue a) (hb : F.FiniteValue b)
include hx hy ha hb

/-- `x + y` of finite operands, between two finite values, is the exact sum correctly rounded. -/
theorem add_isRounding (hav : a ≤ x.toRat + y.toRat) (hvb : x.toRat + y.toRat ≤ b) :
    F.IsRounding mode (x.toRat + y.toRat : ℚ) (add mode x y).toRat := by
  obtain ⟨m, e, hxv, -⟩ := x.toFPValue_of_isInfOrNan_false hx
  obtain ⟨n, f, hyv, -⟩ := y.toFPValue_of_isInfOrNan_false hy
  rw [toRat_of_finite hxv, toRat_of_finite hyv] at hav hvb ⊢
  simp only [add, hxv, hyv]
  exact F.addFinite_isRounding mode _ _ _ _ _ _ ha hb hav hvb

/-- `x - y` of finite operands, between two finite values, is the exact difference correctly
    rounded. -/
theorem sub_isRounding (hav : a ≤ x.toRat - y.toRat) (hvb : x.toRat - y.toRat ≤ b) :
    F.IsRounding mode (x.toRat - y.toRat : ℚ) (sub mode x y).toRat := by
  rw [sub_eq_add_neg, ← toRat_neg hy] at hav hvb ⊢
  exact add_isRounding mode hx (by rwa [isInfOrNan_neg]) ha hb hav hvb

/-- `x * y` of finite operands, between two finite values, is the exact product correctly
    rounded. -/
theorem mul_isRounding (hav : a ≤ x.toRat * y.toRat) (hvb : x.toRat * y.toRat ≤ b) :
    F.IsRounding mode (x.toRat * y.toRat : ℚ) (mul mode x y).toRat := by
  obtain ⟨m, e, hxv, -⟩ := x.toFPValue_of_isInfOrNan_false hx
  obtain ⟨n, f, hyv, -⟩ := y.toFPValue_of_isInfOrNan_false hy
  rw [toRat_of_finite hxv, toRat_of_finite hyv, ← toRat_finite_mul] at hav hvb ⊢
  simp only [mul, hxv, hyv]
  exact F.encode_round_isRounding mode _ _ _ ha hb hav hvb

end IsRounding

/-- A conversion of a finite value between two finite values of the target is that value
    correctly rounded. -/
theorem convert_isRounding {G : FloatProperties} (hx : x.isInfOrNan = false) (ha : G.FiniteValue a)
    (hb : G.FiniteValue b) (hav : a ≤ x.toRat) (hvb : x.toRat ≤ b) :
    G.IsRounding mode x.toRat (convert G mode x).toRat := by
  obtain ⟨m, e, hxv, -⟩ := x.toFPValue_of_isInfOrNan_false hx
  rw [toRat_of_finite hxv] at hav hvb ⊢
  simp only [convert, hxv]
  exact G.encode_round_isRounding mode _ _ _ ha hb hav hvb

end FPBits

end LlvmLibc.FPUtil
