import LlvmLibc.Math.Common
import LlvmLibc.FPUtil.CorrectRounding

/-! The grid of `float` values. The pattern `u` of sign `+` has the value `sig u * 2^ulpExp u`
(`toRat_ofNat_eq`), and the next pattern lies one last place higher (`toRat_ofNat_succ`): the
significand grows by one, or at a binade boundary the exponent does while the significand falls
from `2^24 - 1` to `2^23` (`ulpExp_succ_cases`). Consecutive patterns below the infinity are
adjacent values of the format (`adjacent_ofNat`), so the cells of the correct-rounding
specification are the gaps between consecutive patterns, and the lower end of a cell that crosses a
binade boundary is an odd multiple of the cell's width (`not_even_multiple`). -/

namespace LlvmLibc.Math
open FPUtil FPUtil.FPBits FPUtil.FloatProperties

namespace FloatBits

/-- The exponent of the last place of the pattern `u` of sign `+`. -/
def ulpExp (u : Nat) : Int := max (u / 0x800000 : Nat) 1 - 150

/-- The significand of the pattern `u` of sign `+`: its mantissa field, with the hidden bit of a
    normal pattern. -/
def sig (u : Nat) : Nat := if u < 0x800000 then u else u % 0x800000 + 0x800000

theorem sig_lt (u : Nat) : sig u < 2 ^ 24 := by
  simp only [sig]; split_ifs <;> omega

theorem isInfOrNan_ofNat {u : Nat} (h : u < 0x7f800000) : (ofNat float u).isInfOrNan = false :=
  isInfOrNan_eq_false (by
    rw [show (ofNat float u).uintval = u from Nat.mod_eq_of_lt (show u < 2 ^ 32 by omega)]; omega)

/-- The value of a finite pattern of sign `+`. -/
theorem toRat_ofNat_eq {u : Nat} (h : u < 0x7f800000) :
    (ofNat float u).toRat = sig u * 2 ^ ulpExp u := by
  by_cases hs : u < 0x800000
  · have hu : (ofNat float u).uintval = u := Nat.mod_eq_of_lt (show u < 2 ^ 32 by omega)
    have hq : ulpExp u = -149 := by simp only [ulpExp]; omega
    rw [toRat_eq _ (isInfOrNan_ofNat h), getSign_eq, getUnbiasedExponent_eq, getMantissa_eq, hu,
      decide_eq_false (show ¬0x80000000 ≤ u by omega), if_pos (show u / 0x800000 % 0x100 = 0 by omega),
      hq]
    simp only [sig, if_pos hs, Bool.false_eq_true, if_false, one_mul, float_minQuantum]
    congr 2; omega
  · rw [toRat_ofNat (by omega) h]
    simp only [sig, ulpExp, if_neg hs]
    congr 2; omega

/-- The next pattern has the same last place and the next significand, or, across a binade
    boundary, the next last place and the significand `2^23` after `2^24 - 1`. -/
theorem ulpExp_succ_cases (u : Nat) :
    (ulpExp (u + 1) = ulpExp u ∧ sig (u + 1) = sig u + 1) ∨
      (ulpExp (u + 1) = ulpExp u + 1 ∧ sig (u + 1) = 2 ^ 23 ∧ sig u = 2 ^ 24 - 1) := by
  simp only [ulpExp, sig]
  by_cases hd : 0x800000 ≤ u ∧ (u + 1) % 0x800000 = 0
  · right; split_ifs <;> omega
  · left; split_ifs <;> omega

/-- The next pattern lies one last place higher. -/
theorem toRat_ofNat_succ {u : Nat} (h : u + 1 < 0x7f800000) :
    (ofNat float (u + 1)).toRat = (ofNat float u).toRat + 2 ^ ulpExp u := by
  rw [toRat_ofNat_eq h, toRat_ofNat_eq (by omega)]
  rcases ulpExp_succ_cases u with ⟨h1, h2⟩ | ⟨h1, h2, h3⟩
  · rw [h1, h2]; push_cast; ring
  · rw [h1, h2, h3, two_zpow_add]; norm_num; ring

/-- The value of a pattern is below `2^24` last places. -/
theorem toRat_ofNat_lt {u : Nat} (h : u < 0x7f800000) :
    (ofNat float u).toRat < 2 ^ 24 * 2 ^ ulpExp u := by
  rw [toRat_ofNat_eq h]
  exact mul_lt_mul_of_pos_right (by exact_mod_cast sig_lt u) (two_zpow_pos _)

/-- The next pattern is at most `2^24` last places of `u`: below unless it starts a binade, where
    `u` has the odd significand `2^24 - 1`. -/
theorem toRat_ofNat_succ_le {u : Nat} (h : u + 1 < 0x7f800000) :
    (ofNat float (u + 1)).toRat < 2 ^ 24 * 2 ^ ulpExp u ∨
      ((ofNat float (u + 1)).toRat = 2 ^ 24 * 2 ^ ulpExp u ∧ sig u % 2 = 1) := by
  rw [toRat_ofNat_eq h]
  rcases ulpExp_succ_cases u with ⟨h1, h2⟩ | ⟨h1, h2, h3⟩
  · left
    rw [h1]
    exact mul_lt_mul_of_pos_right (by exact_mod_cast sig_lt (u + 1)) (two_zpow_pos _)
  · refine .inr ⟨?_, by omega⟩
    rw [h1, h2, two_zpow_add]; norm_num; ring

theorem toRat_ofNat_pos {u : Nat} (h0 : 0 < u) (h : u < 0x7f800000) : 0 < (ofNat float u).toRat := by
  rw [toRat_ofNat_eq h]
  have : 0 < sig u := by simp only [sig]; split_ifs <;> omega
  exact mul_pos (by exact_mod_cast this) (two_zpow_pos _)

/-- Consecutive finite patterns of sign `+` are adjacent values of `float`. -/
theorem adjacent_ofNat {u : Nat} (h : u + 1 < 0x7f800000) :
    float.Adjacent (ofNat float u).toRat (ofNat float (u + 1)).toRat := by
  refine ⟨finiteValue_toRat _ (isInfOrNan_ofNat (by omega)), finiteValue_toRat _ (isInfOrNan_ofNat h),
    by rw [toRat_ofNat_succ h]; linarith [two_zpow_pos (ulpExp u)], fun y hy => ?_⟩
  rw [toRat_ofNat_succ h]
  by_contra hne
  push_neg at hne
  obtain ⟨hlo, hhi⟩ := hne
  have hg : ulpExp u ≤ float.minQuantum ∨ 2 ^ (ulpExp u + float.mantissaWidth) ≤ |y| := by
    by_cases hs : u < 0x800000
    · left; simp only [ulpExp, float_minQuantum]; omega
    · right
      have hb : (2 : ℚ) ^ (ulpExp u + 23) ≤ (ofNat float u).toRat := by
        rw [toRat_ofNat_eq (by omega), add_comm, two_zpow_add]
        refine mul_le_mul_of_nonneg_right ?_ (two_zpow_pos _).le
        simp only [sig, if_neg hs]; push_cast; norm_num
      rw [float_mantissaWidth]
      push_cast
      linarith [le_abs_self y]
  obtain ⟨j, rfl⟩ := hy.1.grid float hg
  rw [toRat_ofNat_eq (by omega)] at hlo hhi
  have h1 : (sig u : ℚ) < j := lt_of_mul_lt_mul_right hlo (two_zpow_pos _).le
  have h2 : (j : ℚ) < sig u + 1 := lt_of_mul_lt_mul_right (by linarith) (two_zpow_pos _).le
  have h1' : (sig u : ℤ) < j := by exact_mod_cast h1
  have h2' : j < (sig u : ℤ) + 1 := by exact_mod_cast h2
  omega

/-- A pattern with an odd significand is an odd multiple of the distance to the next one. -/
theorem not_even_multiple {u : Nat} (h : u + 1 < 0x7f800000) (hodd : sig u % 2 = 1) :
    ¬∃ j : ℤ, (ofNat float u).toRat =
      2 * j * ((ofNat float (u + 1)).toRat - (ofNat float u).toRat) := by
  rintro ⟨j, hj⟩
  rw [toRat_ofNat_succ h, add_sub_cancel_left, toRat_ofNat_eq (by omega)] at hj
  have : (sig u : ℤ) = 2 * j := by exact_mod_cast mul_right_cancel₀ (two_zpow_pos _).ne' hj
  omega

/-- The pattern with exponent field `E` and mantissa field `0` is `2^(E - 127)`. -/
theorem toRat_ofNat_two_pow {E : Nat} (h1 : 1 ≤ E) (h2 : E < 255) :
    (ofNat float (E * 0x800000)).toRat = 2 ^ ((E : ℤ) - 127) := by
  have hs : sig (E * 0x800000) = 2 ^ 23 := by simp only [sig]; split_ifs <;> omega
  have hq : ulpExp (E * 0x800000) = (E : ℤ) - 150 := by simp only [ulpExp]; omega
  rw [toRat_ofNat_eq (by omega), hs, hq, show (E : ℤ) - 127 = 23 + ((E : ℤ) - 150) by ring,
    two_zpow_add]
  norm_num

theorem toRat_ofNat_zero : (ofNat float 0).toRat = 0 := by
  rw [toRat_ofNat_eq (by norm_num)]; simp [sig]

theorem uintval_ofNat {u : Nat} (h : u < 2 ^ 32) : (ofNat float u).uintval = u :=
  Nat.mod_eq_of_lt h

theorem eq_ofNat_uintval (x : FloatBits) : x = ofNat float x.uintval := by
  obtain ⟨v, hv⟩ := x
  simp only [ofNat, FPBits.mk.injEq]
  exact (Nat.mod_eq_of_lt hv).symm

/-- The value of a finite `float` is the value of its magnitude pattern, with its sign. -/
theorem toRat_eq_magnitude {x : FloatBits} (hx : x.isInfOrNan = false) :
    x.toRat = if x.getSign then -(ofNat float (x.uintval % 0x80000000)).toRat
      else (ofNat float (x.uintval % 0x80000000)).toRat := by
  have : x.abs = ofNat float (x.uintval % 0x80000000) := by
    rw [eq_ofNat_uintval x.abs, abs_uintval]; rfl
  rw [toRat_eq_abs x hx, this]

theorem toRat_eq_or_eq_neg {x : FloatBits} (hx : x.isInfOrNan = false) :
    x.toRat = (ofNat float (x.uintval % 0x80000000)).toRat ∨
      x.toRat = -(ofNat float (x.uintval % 0x80000000)).toRat := by
  rw [toRat_eq_magnitude hx]; split_ifs <;> simp

theorem toRat_ofNat_le {u v : Nat} (h : u ≤ v) (hv : v < 0x7f800000) :
    (ofNat float u).toRat ≤ (ofNat float v).toRat := by
  have hu' := uintval_ofNat (show u < 2 ^ 32 by omega)
  have hv' := uintval_ofNat (show v < 2 ^ 32 by omega)
  refine toRat_le_toRat ?_ ?_ (isInfOrNan_ofNat hv) (by rw [hu', hv']; exact h) <;>
    simp only [getSign_eq, hu', hv', decide_eq_false_iff_not] <;> omega

theorem toRat_ofNat_lt_ofNat {u v : Nat} (h : u < v) (hv : v < 0x7f800000) :
    (ofNat float u).toRat < (ofNat float v).toRat := by
  obtain ⟨k, rfl⟩ : ∃ k, v = k + 1 := ⟨v - 1, by omega⟩
  rw [toRat_ofNat_succ hv]
  linarith [toRat_ofNat_le (show u ≤ k by omega) (by omega), two_zpow_pos (ulpExp k)]

theorem toRat_ofNat_lt_two_zpow {u E : Nat} (h : u < E * 0x800000) (h1 : 1 ≤ E) (h2 : E < 255) :
    (ofNat float u).toRat < 2 ^ ((E : ℤ) - 127) := by
  rw [← toRat_ofNat_two_pow h1 h2]; exact toRat_ofNat_lt_ofNat h (by omega)

/-! ### Rounding near a pattern -/

section Near
variable {mode : RoundingMode} {r : ℚ} {w v : ℝ}

/-- Below a positive pattern `X`, the points of `[X - X/2^25, X)` round alike, those of
    `(X - X/2^25, X)` as the upper half of the cell below `X`. A point at `X - X/2^25` is the
    midpoint of that cell only when `X` starts a binade, and then the lower end is odd. -/
theorem isRounding_congr_below {u : Nat} (hu : 0 < u) (h : u < 0x7f800000)
    (hw : ((ofNat float u).toRat : ℝ) - (ofNat float u).toRat / 2 ^ 25 ≤ w)
    (hw' : w < (ofNat float u).toRat)
    (hv : ((ofNat float u).toRat : ℝ) - (ofNat float u).toRat / 2 ^ 25 < v)
    (hv' : v < (ofNat float u).toRat) (hr : float.IsRounding mode w r) :
    float.IsRounding mode v r := by
  obtain ⟨k, rfl⟩ : ∃ k, u = k + 1 := ⟨u - 1, by omega⟩
  have hs : ((ofNat float (k + 1)).toRat : ℝ) = (ofNat float k).toRat + ((2 : ℚ) ^ ulpExp k : ℚ) := by
    exact_mod_cast toRat_ofNat_succ h
  rcases toRat_ofNat_succ_le h with hlt | ⟨heq, hodd⟩
  · have : ((ofNat float (k + 1)).toRat : ℝ) < 2 ^ 24 * ((2 : ℚ) ^ ulpExp k : ℚ) := by
      exact_mod_cast hlt
    exact (adjacent_ofNat h).isRounding_of_upper (by linarith) hw'
      (fun h2 => absurd h2 (by linarith)) (by linarith) hv' hr
  · have : ((ofNat float (k + 1)).toRat : ℝ) = 2 ^ 24 * ((2 : ℚ) ^ ulpExp k : ℚ) := by
      exact_mod_cast heq
    exact (adjacent_ofNat h).isRounding_of_upper (by linarith) hw'
      (fun _ => not_even_multiple h hodd) (by linarith) hv' hr

/-- Above a pattern `X`, the points of `(X, X + X/2^25]` round alike, as the lower half of the
    cell above `X`. -/
theorem isRounding_congr_above {u : Nat} (h : u + 1 < 0x7f800000)
    (hw : ((ofNat float u).toRat : ℝ) < w)
    (hw' : w ≤ (ofNat float u).toRat + (ofNat float u).toRat / 2 ^ 25)
    (hv : ((ofNat float u).toRat : ℝ) < v)
    (hv' : v ≤ (ofNat float u).toRat + (ofNat float u).toRat / 2 ^ 25)
    (hr : float.IsRounding mode w r) : float.IsRounding mode v r := by
  have hs : ((ofNat float (u + 1)).toRat : ℝ) = (ofNat float u).toRat + ((2 : ℚ) ^ ulpExp u : ℚ) := by
    exact_mod_cast toRat_ofNat_succ h
  have : ((ofNat float u).toRat : ℝ) < 2 ^ 24 * ((2 : ℚ) ^ ulpExp u : ℚ) := by
    exact_mod_cast toRat_ofNat_lt (show u < 0x7f800000 by omega)
  exact (adjacent_ofNat h).isRounding_of_lower (by linarith) hw (by linarith) hv hr

end Near

/-- A finite `float` times `m * 2^k`, for `|m| < 2^29` and `-900 ≤ k ≤ 0`, is a finite `double`:
    the product of the significands has at most 53 bits. -/
theorem finiteValue_double_mul {x : FloatBits} (hx : x.isInfOrNan = false) {m k : ℤ}
    (hm : m.natAbs < 2 ^ 29) (hk1 : -900 ≤ k) (hk2 : k ≤ 0) :
    double.FiniteValue (x.toRat * (m * 2 ^ k)) := by
  obtain ⟨n, e, hxv, henc⟩ := x.toFPValue_of_isInfOrNan_false hx
  rcases Nat.eq_zero_or_pos n with rfl | hn
  · rw [toRat_of_finite hxv]
    simpa [FPValue.toRat] using finiteValue_zero
  have he := henc.le_maxExponent hn.ne'
  have hmin := henc.minQuantum_le
  have hle := henc.le_two_pow
  simp only [float_maxExponent, float_minQuantum, float_mantissaWidth] at he hmin hle
  have hv : x.toRat * (m * 2 ^ k) = ((if x.getSign then -1 else 1) * n * m : ℤ) * 2 ^ (e + k) := by
    rw [toRat_of_finite hxv, FPValue.toRat, two_zpow_add]; push_cast; split_ifs <;> ring
  have habs : ((if x.getSign then -1 else 1) * n * m : ℤ).natAbs = n * m.natAbs := by
    split_ifs <;> simp [Int.natAbs_mul]
  rw [hv]
  refine finiteValue_int_mul (by simp; omega) ?_ (by simp; omega)
  rw [habs]
  calc n * m.natAbs ≤ 2 ^ 24 * m.natAbs := Nat.mul_le_mul_right _ hle
    _ < 2 ^ 24 * 2 ^ 29 := Nat.mul_lt_mul_of_pos_left hm (by positivity)
    _ = 2 ^ (double.mantissaWidth + 1) := by norm_num

end FloatBits

end LlvmLibc.Math
