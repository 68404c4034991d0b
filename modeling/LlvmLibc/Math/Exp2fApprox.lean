import LlvmLibc.Math.Exp2f
import LlvmLibc.FPUtil.ErrorBound
import Mathlib.Analysis.SpecialFunctions.Pow.Real
import Mathlib.Data.Complex.ExponentialBounds

/-! # The constants of `exp2f` against `2^x`

`exp2f` computes `2^x` as `2^hi * EXP_M[mid] * p(lo)`, with `EXP_M[mid]` standing for `2^(mid/64)`
and the degree-4 polynomial `p` of its `double` coefficients for `2^lo` on `|lo| ≤ 2^-7`. Both
stand-ins are close: every entry of `EXP_M` is within `2^-53` of `2^(mid/64)`, relatively
(`expM_near`), which the exact integer comparison `(2m)^64` against `2^mid (2^53 ± 1)^64` decides
(`expMCheck_all`); and on `|t| ≤ 1/127` the polynomial is within `2^-39` of `2^t`
(`abs_horner_exp2fCoeffs_sub_le`), from the Taylor polynomial of `e^(t log 2)` with its remainder
(`Real.exp_bound`) and `log 2` to ten digits (`Real.log_two_near_10`). -/

namespace LlvmLibc.Math
open FPUtil FPUtil.FPBits FPUtil.FloatProperties

/-! ### The polynomial -/

/-- The values of the coefficients `exp2f` passes to `polyeval`, lowest degree first. -/
def exp2fCoeffs : List ℚ :=
  [1, 0x162e42fefa2417 / 2 ^ 53, 0x1ebfbdff82f809 / 2 ^ 55, 0x1c6b0b92131c47 / 2 ^ 57,
    0x13b2ab6fb568a3 / 2 ^ 59]

/-- `log 2` to ten digits (`Real.log_two_near_10`), and its powers between those of the ends. -/
theorem log_two_pow_mem (k : ℕ) :
    (287209 / 414355 - 1 / 10 ^ 10 : ℝ) ^ k ≤ Real.log 2 ^ k ∧
      Real.log 2 ^ k ≤ (287209 / 414355 + 1 / 10 ^ 10 : ℝ) ^ k := by
  obtain ⟨h1, h2⟩ := abs_le.mp Real.log_two_near_10
  exact ⟨pow_le_pow_left₀ (by norm_num) (by linarith) k,
    pow_le_pow_left₀ (by linarith [Real.log_pos one_lt_two]) (by linarith) k⟩

/-- The coefficients of the polynomial differ from those of the Taylor polynomial of
    `e^(t log 2)` by at most `1.1e-10`, `1e-10`, `1e-7` and `1e-11`: the third is moved by about
    `8e-8` to make up for the remainder. -/
theorem exp2fCoeffs_sub_taylor_le :
    |(0x162e42fefa2417 / 2 ^ 53 - Real.log 2 : ℝ)| ≤ 11 / 10 ^ 11 ∧
      |(0x1ebfbdff82f809 / 2 ^ 55 - Real.log 2 ^ 2 / 2 : ℝ)| ≤ 1 / 10 ^ 10 ∧
      |(0x1c6b0b92131c47 / 2 ^ 57 - Real.log 2 ^ 3 / 6 : ℝ)| ≤ 1 / 10 ^ 7 ∧
      |(0x13b2ab6fb568a3 / 2 ^ 59 - Real.log 2 ^ 4 / 24 : ℝ)| ≤ 1 / 10 ^ 11 := by
  obtain ⟨h11, h12⟩ := log_two_pow_mem 1
  obtain ⟨h21, h22⟩ := log_two_pow_mem 2
  obtain ⟨h31, h32⟩ := log_two_pow_mem 3
  obtain ⟨h41, h42⟩ := log_two_pow_mem 4
  rw [pow_one, pow_one] at h11 h12
  exact ⟨abs_le.mpr ⟨by linarith only [h12], by linarith only [h11]⟩,
    abs_le.mpr ⟨by linarith only [h22], by linarith only [h21]⟩,
    abs_le.mpr ⟨by linarith only [h32], by linarith only [h31]⟩,
    abs_le.mpr ⟨by linarith only [h42], by linarith only [h41]⟩⟩

theorem abs_add_four_sub_le (T a b c d e : ℝ) :
    |T + (a + b + c + d) - e| ≤ |a| + |b| + |c| + |d| + |e - T| := by
  rw [show T + (a + b + c + d) - e = a + b + c + d - (e - T) by ring]
  linarith [abs_sub (a + b + c + d) (e - T), abs_add (a + b + c) d, abs_add (a + b) c, abs_add a b]

/-- On `|t| ≤ 1/127`, the polynomial of `exp2f` is within `2^-39` of `2^t`. -/
theorem abs_horner_exp2fCoeffs_sub_le (t : ℚ) (ht : |t| ≤ 1 / 127) :
    |((horner t exp2fCoeffs : ℚ) : ℝ) - (2 : ℝ) ^ (t : ℝ)| ≤ 1 / 2 ^ 39 := by
  have ht' : |(t : ℝ)| ≤ 1 / 127 := by
    have := (Rat.cast_le (K := ℝ)).mpr ht; push_cast at this; exact this
  obtain ⟨d1, d2, d3, d4⟩ := exp2fCoeffs_sub_taylor_le
  set L := Real.log 2
  have hy : |L * t| ≤ 7 / 10 * (1 / 127) := by
    rw [abs_mul, abs_of_pos (Real.log_pos one_lt_two)]
    exact mul_le_mul (by linarith [abs_le.mp Real.log_two_near_10]) ht' (abs_nonneg _) (by norm_num)
  have hexp := Real.exp_bound (hy.trans (by norm_num)) (n := 5) (by norm_num)
  simp only [Finset.sum_range_succ, Finset.sum_range_zero, Nat.factorial] at hexp
  push_cast at hexp
  simp only [pow_zero, pow_one, div_one, zero_add] at hexp
  rw [Real.rpow_def_of_pos two_pos]
  -- the polynomial is the Taylor polynomial of `e^(t log 2)` plus the differences of the coefficients
  have hP : ((horner t exp2fCoeffs : ℚ) : ℝ) = 1 + L * t + (L * t) ^ 2 / 2 + (L * t) ^ 3 / 6 +
      (L * t) ^ 4 / 24 + ((0x162e42fefa2417 / 2 ^ 53 - L) * t +
        (0x1ebfbdff82f809 / 2 ^ 55 - L ^ 2 / 2) * t ^ 2 +
        (0x1c6b0b92131c47 / 2 ^ 57 - L ^ 3 / 6) * t ^ 3 +
        (0x13b2ab6fb568a3 / 2 ^ 59 - L ^ 4 / 24) * t ^ 4) := by
    simp only [exp2fCoeffs, horner]; push_cast; ring
  have hterm : ∀ {d D : ℝ} (k : ℕ), |d| ≤ D → |d * (t : ℝ) ^ k| ≤ D * (1 / 127) ^ k := fun k hd => by
    rw [abs_mul, abs_pow]
    exact mul_le_mul hd (pow_le_pow_left₀ (abs_nonneg _) ht' k) (by positivity) ((abs_nonneg _).trans hd)
  rw [hP]
  calc _ ≤ |(0x162e42fefa2417 / 2 ^ 53 - L) * t| + |(0x1ebfbdff82f809 / 2 ^ 55 - L ^ 2 / 2) * t ^ 2| +
        |(0x1c6b0b92131c47 / 2 ^ 57 - L ^ 3 / 6) * t ^ 3| +
        |(0x13b2ab6fb568a3 / 2 ^ 59 - L ^ 4 / 24) * t ^ 4| +
        |Real.exp (L * t) - (1 + L * t + (L * t) ^ 2 / 2 + (L * t) ^ 3 / 6 + (L * t) ^ 4 / 24)| :=
        abs_add_four_sub_le _ _ _ _ _ _
    _ ≤ 11 / 10 ^ 11 * (1 / 127) + 1 / 10 ^ 10 * (1 / 127) ^ 2 + 1 / 10 ^ 7 * (1 / 127) ^ 3 +
        1 / 10 ^ 11 * (1 / 127) ^ 4 + (7 / 10 * (1 / 127)) ^ 5 * (6 / (120 * 5)) := by
        gcongr
        · simpa using hterm 1 d1
        · exact hterm 2 d2
        · exact hterm 3 d3
        · exact hterm 4 d4
        · exact hexp.trans (mul_le_mul_of_nonneg_right (pow_le_pow_left₀ (abs_nonneg _) hy 5)
            (by norm_num))
    _ ≤ 1 / 2 ^ 39 := by norm_num

/-! ### The table `EXP_M` -/

/-- The mantissas of `EXP_M`, in order. -/
def expMMantissa : List Nat := [
  0x10000000000000, 0x102c9a3e778061, 0x1059b0d3158574, 0x10874518759bc8,
  0x10b5586cf9890f, 0x10e3ec32d3d1a2, 0x111301d0125b51, 0x11429aaea92de0,
  0x1172b83c7d517b, 0x11a35beb6fcb75, 0x11d4873168b9aa, 0x12063b88628cd6,
  0x12387a6e756238, 0x126b4565e27cdd, 0x129e9df51fdee1, 0x12d285a6e4030b,
  0x1306fe0a31b715, 0x133c08b26416ff, 0x1371a7373aa9cb, 0x13a7db34e59ff7,
  0x13dea64c123422, 0x14160a21f72e2a, 0x144e086061892d, 0x1486a2b5c13cd0,
  0x14bfdad5362a27, 0x14f9b2769d2ca7, 0x15342b569d4f82, 0x156f4736b527da,
  0x15ab07dd485429, 0x15e76f15ad2148, 0x16247eb03a5585, 0x16623882552225,
  0x16a09e667f3bcd, 0x16dfb23c651a2f, 0x171f75e8ec5f74, 0x175feb564267c9,
  0x17a11473eb0187, 0x17e2f336cf4e62, 0x182589994cce13, 0x1868d99b4492ed,
  0x18ace5422aa0db, 0x18f1ae99157736, 0x193737b0cdc5e5, 0x197d829fde4e50,
  0x19c49182a3f090, 0x1a0c667b5de565, 0x1a5503b23e255d, 0x1a9e6b5579fdbf,
  0x1ae89f995ad3ad, 0x1b33a2b84f15fb, 0x1b7f76f2fb5e47, 0x1bcc1e904bc1d2,
  0x1c199bdd85529c, 0x1c67f12e57d14b, 0x1cb720dcef9069, 0x1d072d4a07897c,
  0x1d5818dcfba487, 0x1da9e603db3285, 0x1dfc97337b9b5f, 0x1e502ee78b3ff6,
  0x1ea4afa2a490da, 0x1efa1bee615a27, 0x1f50765b6e4540, 0x1fa7c1819e90d8]

theorem expM_eq_map : expM = expMMantissa.map (fun m => double.lit m (-52)) := rfl

/-- `2m * 2^-53` is within `2^-53` of `2^(i/64)`, relatively: `(2m)^64` lies between
    `2^i (2^53 - 1)^64` and `2^i (2^53 + 1)^64`. -/
def expMCheck (i m : Nat) : Bool :=
  (2 * m) ^ 64 ≤ 2 ^ i * (2 ^ 53 + 1) ^ 64 && 2 ^ i * (2 ^ 53 - 1) ^ 64 ≤ (2 * m) ^ 64 && m < 2 ^ 53

theorem expMCheck_all : ∀ i < 64, expMCheck i (expMMantissa.getD i 0) = true := by decide

theorem toRat_lit_double {m : Nat} (h : m < 2 ^ 53) :
    (double.lit m (-52)).isInfOrNan = false ∧ (double.lit m (-52)).toRat = m * 2 ^ (-52 : Int) := by
  have hf := finiteValue_int_mul (F := double) (m := m) (q := -52) (by simp) (by simpa using h)
    (by simp)
  have hw := lit_within (F := double) (m := m) (e := -52) (by exact_mod_cast hf)
  exact ⟨hw.isInfOrNan_eq, hw.toRat_eq⟩

theorem two_rpow_div_pow (i : Nat) : ((2 : ℝ) ^ ((i : ℝ) / 64)) ^ 64 = 2 ^ i := by
  rw [← Real.rpow_natCast, ← Real.rpow_mul two_pos.le, Nat.cast_ofNat,
    div_mul_cancel₀ _ (by norm_num), Real.rpow_natCast]

/-- Every entry of `EXP_M` is a finite `double` within `2^-53` of `2^(i/64)`, relatively. -/
theorem expM_near {i : Nat} (hi : i < 64) :
    (expM.getD i (zero double false)).isInfOrNan = false ∧
      |((expM.getD i (zero double false)).toRat : ℝ) - 2 ^ ((i : ℝ) / 64)| ≤
        2 ^ ((i : ℝ) / 64) / 2 ^ 53 := by
  have hlen : i < expMMantissa.length := hi
  have hget : expM.getD i (zero double false) = double.lit (expMMantissa.getD i 0) (-52) := by
    rw [List.getD_eq_getElem _ _ (by rw [expM_eq_map, List.length_map]; exact hlen),
      List.getD_eq_getElem _ _ hlen]
    simp [expM_eq_map]
  have hc := expMCheck_all i hi
  set m := expMMantissa.getD i 0
  simp only [expMCheck, Bool.and_eq_true, decide_eq_true_eq] at hc
  obtain ⟨⟨h1, h2⟩, h3⟩ := hc
  obtain ⟨hfin, hval⟩ := toRat_lit_double h3
  rw [hget, hval]
  refine ⟨hfin, ?_⟩
  have hV64 := two_rpow_div_pow i
  set V := (2 : ℝ) ^ ((i : ℝ) / 64)
  have hup : 2 * (m : ℝ) ≤ V * (2 ^ 53 + 1) := by
    rw [← pow_le_pow_iff_left₀ (by positivity) (by positivity) (by norm_num : 64 ≠ 0),
      mul_pow V, hV64]
    exact_mod_cast h1
  have hlo : V * (2 ^ 53 - 1) ≤ 2 * (m : ℝ) := by
    rw [← pow_le_pow_iff_left₀ (by positivity) (by positivity) (by norm_num : 64 ≠ 0),
      mul_pow V, hV64, ← show ((2 ^ 53 - 1 : Nat) : ℝ) = 2 ^ 53 - 1 by norm_num]
    exact_mod_cast h2
  push_cast
  rw [abs_le]
  constructor <;> linarith

/-! ### Powers of two near `1` -/

/-- `2^d` is within `2|d|` of `1` for `|d| ≤ 1`. -/
theorem abs_two_rpow_sub_one_le {d : ℝ} (h : |d| ≤ 1) : |(2 : ℝ) ^ d - 1| ≤ 2 * |d| := by
  have hL := abs_le.mp Real.log_two_near_10
  have hL0 := Real.log_pos one_lt_two
  have hLd : |Real.log 2 * d| ≤ |d| := by
    rw [abs_mul, abs_of_pos hL0]; exact mul_le_of_le_one_left (abs_nonneg d) (by linarith)
  rw [Real.rpow_def_of_pos two_pos]
  exact (Real.abs_exp_sub_one_le (hLd.trans h)).trans (by linarith)

/-- `2^t ≥ 99/100` for `t ≥ -1/127`. -/
theorem two_rpow_ge {t : ℝ} (h : -(1 / 127) ≤ t) : 99 / 100 ≤ (2 : ℝ) ^ t := by
  have hL := abs_le.mp Real.log_two_near_10
  rw [Real.rpow_def_of_pos two_pos]
  have := Real.add_one_le_exp (Real.log 2 * t)
  have := mul_nonneg (Real.log_pos one_lt_two).le (show 0 ≤ t + 1 / 127 by linarith)
  linarith

end LlvmLibc.Math
