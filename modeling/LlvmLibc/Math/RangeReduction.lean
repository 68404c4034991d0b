import LlvmLibc.Math.Common

/-! The two range reductions of the single-precision exponentials (§4.2), as exact arithmetic.

`roundingReduction k` takes `x_hi` as the truncation of the float sum `x * 2^k ± 0.5` and
`lo = x - x_hi * 2^-k` in `float`. Once `|x * 2^k| ≥ 1/2` (and below `2^22`), every rounding of
`x * 2^k ± 0.5` keeps its integer part (`exists_bracket_add_half`), so `x_hi` is `x * 2^k` rounded
half away from zero and `lo` is exact with `|lo| ≤ 2^-(k+1)` (`roundingReduction_exact`). Below
`1/2` the sum can round to `±1`, and then `lo` is not exact. `truncReduction` truncates `x * 2^7`
and moves `x_hi` by one when the residual leaves `[-2^-8, 2^-8)`; for `|x| ≥ 2^-8` every step is
exact (`truncReduction_exact`). For every input, `x_hi` lies between the integer parts of the
bounds of `x * 2^k` (`roundingReduction_fst_mem`). -/

namespace LlvmLibc.Math
open FPUtil FPUtil.FPBits FPUtil.FloatProperties

/-! ### Exact operations -/

section Exact
variable (mode : RoundingMode) {x : FloatBits}

/-- The literal `2^k`, from the least quantum up to `k + mantissaWidth = maxExponent`. -/
theorem lit_one_within {F : FloatProperties} {k : Int} (h1 : F.minQuantum ≤ k)
    (h2 : k + F.mantissaWidth ≤ F.maxExponent) : (F.lit 1 k).Within (2 ^ k) (2 ^ k) := by
  have h := finiteValue_int_mul (F := F) (m := 1) (q := k) h1
    (by simp) h2
  simpa using lit_within (F := F) (m := 1) (e := k) (by simpa using h)

/-- Multiplying by `2^k` is exact when the product is a finite value. -/
theorem mul_lit_within (hx : x.isInfOrNan = false) {k : Int} (h1 : -149 ≤ k) (h2 : k ≤ 104)
    (hv : float.FiniteValue (x.toRat * 2 ^ k)) :
    (mul mode x (float.lit 1 k)).Within (x.toRat * 2 ^ k) (x.toRat * 2 ^ k) := by
  have hl := lit_one_within (F := float) (k := k) (by simpa using h1) (by simp; omega)
  exact mul_within mode hx hl.isInfOrNan_eq hv hv (by rw [hl.toRat_eq]) (by rw [hl.toRat_eq])

/-- `±1/2`, the constant `roundingReduction` adds. -/
theorem half_within (s : Bool) :
    (if s then (float.lit 1 (-1)).neg else float.lit 1 (-1)).Within
      (if s then -1 / 2 else 1 / 2) (if s then -1 / 2 else 1 / 2) := by
  have hl := lit_one_within (F := float) (k := -1) (by simp) (by simp)
  have hv : (float.lit 1 (-1)).toRat = 1 / 2 := by rw [hl.toRat_eq]; norm_num
  cases s
  · simpa [hv] using hl
  · have hneg := toRat_neg hl.isInfOrNan_eq
    refine ⟨by rw [if_pos rfl, isInfOrNan_neg]; exact hl.isInfOrNan_eq, ?_, ?_⟩ <;>
      norm_num [hneg, hv]

end Exact

/-! ### Adding one half -/

/-- `z + 1/2` for a float `z` with `1/2 ≤ z < 2^22` lies between two finite values with the integer
    part of `z + 1/2`: it is a float itself, or it lies in `[P, P + 1/2]` for the power of two
    `P = 2^(q + 24)` just above `z`. -/
theorem exists_bracket_add_half {z : ℚ} (hz : float.Representable z) (h1 : 1 / 2 ≤ z)
    (h2 : z < 2 ^ 22) : ∃ a b : ℚ, float.FiniteValue a ∧ float.FiniteValue b ∧ a ≤ z + 1 / 2 ∧
      z + 1 / 2 ≤ b ∧ ⌊a⌋ = ⌊z + 1 / 2⌋ ∧ ⌊b⌋ = ⌊z + 1 / 2⌋ := by
  have hself : float.FiniteValue (z + 1 / 2) → ∃ a b : ℚ, float.FiniteValue a ∧
      float.FiniteValue b ∧ a ≤ z + 1 / 2 ∧ z + 1 / 2 ≤ b ∧ ⌊a⌋ = ⌊z + 1 / 2⌋ ∧
      ⌊b⌋ = ⌊z + 1 / 2⌋ := fun h => ⟨_, _, h, h, le_rfl, le_rfl, rfl, rfl⟩
  obtain ⟨m, q, hq, hm, rfl⟩ := hz
  simp only [float_minQuantum, float_mantissaWidth] at hq hm
  have hq2 := two_zpow_pos q
  have hm0 : 0 < m := by
    by_contra h
    have : (m : ℚ) ≤ 0 := by exact_mod_cast not_lt.mp h
    nlinarith
  have hm24 : m < 2 ^ 24 := by omega
  have hm24' : (m : ℚ) < 2 ^ 24 := by exact_mod_cast hm24
  rcases le_or_lt (-1) q with hq1 | hq1
  · -- a quantum of at least `1/2`: `z + 1/2` is a float at the quantum `1/2`
    apply hself
    have hj := two_zpow_of_le hq1
    generalize (q - -1).toNat = j at hj
    have hlt : m * 2 ^ j < (2 : ℤ) ^ 23 := by
      have : ((m * 2 ^ j : ℤ) : ℚ) * 2 ^ (-1 : ℤ) < 2 ^ 22 := by
        push_cast; rw [mul_assoc, ← hj]; exact h2
      have : ((m * 2 ^ j : ℤ) : ℚ) < 2 ^ 23 := by norm_num at this ⊢; linarith
      exact_mod_cast this
    have hpos : 0 ≤ m * 2 ^ j := by positivity
    have := finiteValue_int_mul (F := float) (m := m * 2 ^ j + 1) (q := -1)
      (by simp) (by simp; omega) (by simp)
    convert this using 1
    push_cast; rw [add_mul, mul_assoc, ← hj]; norm_num
  · -- a finer quantum: `1/2 = t * 2^q`
    have hq24 : -24 ≤ q := by
      by_contra h
      have : (2 : ℚ) ^ q ≤ 2 ^ (-25 : ℤ) := two_zpow_le (by omega)
      have : (m : ℚ) * 2 ^ q < 1 / 2 :=
        calc (m : ℚ) * 2 ^ q < 2 ^ 24 * 2 ^ q := mul_lt_mul_of_pos_right hm24' hq2
          _ ≤ 2 ^ 24 * 2 ^ (-25 : ℤ) := mul_le_mul_of_nonneg_left this (by norm_num)
          _ = 1 / 2 := by norm_num
      linarith
    have ht := two_zpow_of_le (show q ≤ -1 by omega)
    generalize (-1 - q).toNat = t at ht
    have hv : (m : ℚ) * 2 ^ q + 1 / 2 = ((m + 2 ^ t : ℤ) : ℚ) * 2 ^ q := by
      push_cast; rw [add_mul, ← ht]; norm_num
    have ht0 : (0 : ℤ) < 2 ^ t := by positivity
    rcases lt_or_le (m + 2 ^ t) (2 ^ 24) with hlt | hle
    · -- no carry into the next binade: `z + 1/2` is a float at the quantum of `z`
      apply hself
      rw [hv]
      exact finiteValue_int_mul (by simpa using hq) (by simp; omega) (by simp; omega)
    · -- a carry: `z < P ≤ z + 1/2 < P + 1/2` for `P = 2^(q + 24)`
      obtain ⟨P, hP⟩ : ∃ P : ℕ, 2 ^ (q + 24).toNat = P := ⟨_, rfl⟩
      have hP22 : P ≤ 2 ^ 22 := hP ▸ Nat.pow_le_pow_right (by norm_num) (by omega)
      have hPq : (P : ℚ) = 2 ^ 24 * 2 ^ q := by
        rw [← hP, Nat.cast_pow, Nat.cast_ofNat, ← two_zpow_natCast, Int.toNat_of_nonneg (by omega),
          two_zpow_add, mul_comm]
        norm_num
      have hle' : ((2 : ℤ) ^ 24 : ℚ) ≤ ((m + 2 ^ t : ℤ) : ℚ) := by exact_mod_cast hle
      have hPa : (P : ℚ) ≤ m * 2 ^ q + 1 / 2 := by
        rw [hv, hPq]; push_cast at hle' ⊢; exact mul_le_mul_of_nonneg_right hle' hq2.le
      have hPb : (m : ℚ) * 2 ^ q + 1 / 2 ≤ P + 1 / 2 := by
        rw [hPq]; linarith [mul_lt_mul_of_pos_right hm24' hq2]
      have hfl : ⌊(m : ℚ) * 2 ^ q + 1 / 2⌋ = P :=
        Int.floor_eq_iff.mpr ⟨by exact_mod_cast hPa, by push_cast; linarith⟩
      refine ⟨P, P + 1 / 2, ?_, ?_, hPa, hPb, ?_, ?_⟩
      · simpa using finiteValue_int_mul (F := float) (m := P) (q := 0) (by simp) (by simp; omega)
          (by simp)
      · convert finiteValue_int_mul (F := float) (m := 2 * P + 1) (q := -1) (by simp)
          (by simp; omega) (by simp) using 1
        push_cast; ring
      · rw [hfl]; exact_mod_cast Int.floor_natCast P
      · rw [hfl]; exact Int.floor_eq_iff.mpr ⟨by push_cast; linarith, by push_cast; linarith⟩

/-- The integer part of `w + 1/2` is within `1/2` of `w`. -/
theorem abs_sub_floor_add_half_le (w : ℚ) : |w - ⌊w + 1 / 2⌋| ≤ 1 / 2 := by
  have h1 := Int.floor_le (w + 1 / 2)
  have h2 := Int.lt_floor_add_one (w + 1 / 2)
  rw [abs_le]; constructor <;> linarith

/-! ### Residuals -/

section Residual
variable {v : ℚ} {k : Nat}

/-- A float `v` with `2^-(k+1) ≤ |v|` lies on the grid `2^-(k+24)`, and so does `v - i * 2^-k`. -/
theorem exists_int_mul_sub (hv : float.Representable v) (h1 : 2 ^ (-(k : Int) - 1) ≤ |v|)
    (i : Int) : ∃ c : Int, v - i * 2 ^ (-(k : Int)) = c * 2 ^ (-(k : Int) - 24) := by
  obtain ⟨j, hj⟩ := hv.grid _ (q := -(k : Int) - 24)
    (.inr (by rw [float_mantissaWidth]; convert h1 using 2; push_cast; ring))
  refine ⟨j - i * 2 ^ 24, ?_⟩
  have h24 : (2 : ℚ) ^ (-(k : Int)) = 2 ^ 24 * 2 ^ (-(k : Int) - 24) := by
    rw [← two_zpow_natCast, ← two_zpow_add]; congr 1; push_cast; ring
  rw [hj, h24]; push_cast; ring

/-- The residual `v - i * 2^-k` of a float `v` with `2^-(k+1) ≤ |v|` and an integer `i` within one
    of `v * 2^k` is a float. -/
theorem finiteValue_sub_int_mul (hv : float.Representable v) (hk : k ≤ 100)
    (h1 : 2 ^ (-(k : Int) - 1) ≤ |v|) {i : Int} (hi : |v * 2 ^ (k : Int) - i| < 1) :
    float.FiniteValue (v - i * 2 ^ (-(k : Int))) := by
  obtain ⟨c, hc⟩ := exists_int_mul_sub hv h1 i
  have hk2 := two_zpow_pos (-(k : Int) - 24)
  have hval : |v - i * 2 ^ (-(k : Int))| = |v * 2 ^ (k : Int) - i| * 2 ^ (-(k : Int)) := by
    rw [← abs_of_pos (two_zpow_pos (-(k : Int))), ← abs_mul, abs_of_pos (two_zpow_pos _),
      sub_mul, mul_assoc, ← two_zpow_add, add_neg_cancel, zpow_zero, mul_one]
  have hc24 : (|c| : ℚ) < 2 ^ 24 := by
    have h24 : (2 : ℚ) ^ (-(k : Int)) = 2 ^ 24 * 2 ^ (-(k : Int) - 24) := by
      rw [← two_zpow_natCast, ← two_zpow_add]; congr 1; push_cast; ring
    have : |(c : ℚ)| * 2 ^ (-(k : Int) - 24) < 2 ^ 24 * 2 ^ (-(k : Int) - 24) := by
      rw [← abs_of_pos hk2, ← abs_mul, ← hc, abs_of_pos hk2, hval, ← h24]
      exact mul_lt_of_lt_one_left (two_zpow_pos _) hi
    exact_mod_cast lt_of_mul_lt_mul_right this hk2.le
  have hc24' : |c| < 2 ^ 24 := by exact_mod_cast hc24
  rw [Int.abs_eq_natAbs] at hc24'
  rw [hc]
  exact finiteValue_int_mul (by simp; omega) (by simp; omega) (by simp; omega)

end Residual

/-! ### Truncating a rounded value -/

section Trunc
variable {F : FloatProperties} {y : FPBits F} {a b : ℚ} {n : ℤ}

/-- A finite value between two nonnegative bounds with the integer part `n` truncates to `n`. -/
theorem toIntTrunc_of_within (hy : y.Within a b) (ha : 0 ≤ a) (hfa : ⌊a⌋ = n) (hfb : ⌊b⌋ = n) :
    y.toIntTrunc = n := by
  rw [toIntTrunc_eq hy.isInfOrNan_eq, if_pos (ha.trans hy.le_toRat)]
  exact le_antisymm (hfb ▸ Int.floor_mono hy.toRat_le) (hfa ▸ Int.floor_mono hy.le_toRat)

/-- A finite value between the negations of two positive bounds with the integer part `n`
    truncates to `-n`. -/
theorem toIntTrunc_of_within_neg (hy : y.Within (-b) (-a)) (ha : 0 < a) (hfa : ⌊a⌋ = n)
    (hfb : ⌊b⌋ = n) : y.toIntTrunc = -n := by
  rw [toIntTrunc_eq hy.isInfOrNan_eq, if_neg (by linarith [hy.toRat_le])]
  refine le_antisymm ?_ ?_
  · rw [← hfa, ← Int.ceil_neg]; exact Int.ceil_mono hy.toRat_le
  · rw [← hfb, ← Int.ceil_neg]; exact Int.ceil_mono hy.le_toRat

end Trunc

/-! ### `roundingReduction` -/

section RoundingReduction
variable (mode : RoundingMode) {x : FloatBits} {k : Nat}

/-- Once `1/2 ≤ |x * 2^k| < 2^22`, `x_hi` is `x * 2^k` rounded half away from zero. -/
theorem roundingReduction_fst_near (hk : k ≤ 100) (hx : x.isInfOrNan = false)
    (h1 : 1 / 2 ≤ |x.toRat * 2 ^ (k : Int)|) (h2 : |x.toRat * 2 ^ (k : Int)| < 2 ^ 22) :
    |x.toRat * 2 ^ (k : Int) - (roundingReduction k mode x).1| ≤ 1 / 2 := by
  have hzf : float.FiniteValue (x.toRat * 2 ^ (k : Int)) :=
    ⟨(finiteValue_toRat x hx).1.mul_two_zpow (by omega),
      h2.trans_le (by rw [float_maxExponent]; norm_num)⟩
  have hv1 := mul_lit_within mode hx (k := k) (by omega) (by omega) hzf
  have hk2 := two_zpow_pos (k : Int)
  have hz0 : x.getSign = false → 0 ≤ x.toRat * 2 ^ (k : Int) :=
    fun hs => mul_nonneg (toRat_nonneg hx hs) hk2.le
  have hz1 : x.getSign = true → x.toRat * 2 ^ (k : Int) ≤ 0 :=
    fun hs => by nlinarith [toRat_nonpos hx hs]
  simp only [roundingReduction]
  generalize x.toRat * 2 ^ (k : Int) = z at h1 h2 hzf hv1 hz0 hz1
  cases hs : x.getSign
  · -- `x_hi` truncates a rounding of `z + 1/2 ≥ 1`
    rw [abs_of_nonneg (hz0 hs)] at h1 h2
    obtain ⟨a, b, ha, hb, hav, hvb, hfa, hfb⟩ := exists_bracket_add_half hzf.1 h1 h2
    have hh := half_within false
    simp only [Bool.false_eq_true, if_false] at hh ⊢
    have hw := add_within mode hv1.isInfOrNan_eq hh.isInfOrNan_eq ha hb
      (by rw [hv1.toRat_eq, hh.toRat_eq]; exact hav) (by rw [hv1.toRat_eq, hh.toRat_eq]; exact hvb)
    have ha0 : 0 ≤ a := by
      have h1' : (1 : ℤ) ≤ ⌊z + 1 / 2⌋ := Int.le_floor.mpr (by push_cast; linarith)
      have := Int.floor_le a
      rw [hfa] at this
      linarith [(by exact_mod_cast h1' : (1 : ℚ) ≤ ⌊z + 1 / 2⌋)]
    rw [toIntTrunc_of_within hw ha0 hfa hfb]
    exact abs_sub_floor_add_half_le z
  · -- `x_hi` truncates a rounding of `z - 1/2 ≤ -1`
    rw [abs_of_nonpos (hz1 hs)] at h1 h2
    obtain ⟨a, b, ha, hb, hav, hvb, hfa, hfb⟩ := exists_bracket_add_half hzf.1.neg h1 h2
    have hh := half_within true
    simp only [if_true] at hh ⊢
    have hw := add_within mode hv1.isInfOrNan_eq hh.isInfOrNan_eq hb.neg ha.neg
      (by rw [hv1.toRat_eq, hh.toRat_eq]; linarith) (by rw [hv1.toRat_eq, hh.toRat_eq]; linarith)
    have ha0 : 0 < a := by
      have h1' : (1 : ℤ) ≤ ⌊-z + 1 / 2⌋ := Int.le_floor.mpr (by push_cast; linarith)
      have := Int.floor_le a
      rw [hfa] at this
      linarith [(by exact_mod_cast h1' : (1 : ℚ) ≤ ⌊-z + 1 / 2⌋)]
    rw [toIntTrunc_of_within_neg hw ha0 hfa hfb, ← abs_neg]
    convert abs_sub_floor_add_half_le (-z) using 2
    push_cast; ring

/-- `x - float(i) * 2^-k` in `float` is exact for a float `x` with `2^-(k+1) ≤ |x|` and an integer
    `i` within one of `x * 2^k`. -/
theorem residual_within (hk : k ≤ 100) (hx : x.isInfOrNan = false)
    (h1 : (2 : ℚ) ^ (-(k : Int) - 1) ≤ |x.toRat|) (h2 : |x.toRat * 2 ^ (k : Int)| < 2 ^ 22)
    {i : Int} (hi : |x.toRat * 2 ^ (k : Int) - i| < 1) :
    (sub mode x (mul mode (ofInt float mode i) (float.lit 1 (-(k : Int))))).Within
      (x.toRat - i * 2 ^ (-(k : Int))) (x.toRat - i * 2 ^ (-(k : Int))) := by
  -- the integer `i` and its scaling by `2^-k` are floats
  have hi24 : |i| < 2 ^ 23 := by
    have := abs_sub_abs_le_abs_sub (i : ℚ) (x.toRat * 2 ^ (k : Int))
    rw [abs_sub_comm] at this
    have : |(i : ℚ)| < 2 ^ 23 := by linarith
    exact_mod_cast this
  rw [Int.abs_eq_natAbs] at hi24
  have hfi : float.FiniteValue (i : ℚ) := by
    simpa using finiteValue_int_mul (F := float) (m := i) (q := 0) (by simp) (by simp; omega)
      (by simp)
  have hfi2 : float.FiniteValue (i * 2 ^ (-(k : Int))) :=
    finiteValue_int_mul (by simp; omega) (by simp; omega) (by simp; omega)
  -- and so is the residual
  have hfr := finiteValue_sub_int_mul (finiteValue_toRat x hx).1 hk h1 hi
  have hw1 := ofInt_within mode i hfi hfi le_rfl le_rfl
  have hl := lit_one_within (F := float) (k := -(k : Int)) (by simp; omega) (by simp; omega)
  have hw2 := mul_within mode hw1.isInfOrNan_eq hl.isInfOrNan_eq hfi2 hfi2
    (by rw [hw1.toRat_eq, hl.toRat_eq]) (by rw [hw1.toRat_eq, hl.toRat_eq])
  exact sub_within mode hx hw2.isInfOrNan_eq hfr hfr (by rw [hw2.toRat_eq]) (by rw [hw2.toRat_eq])

/-- Once `1/2 ≤ |x * 2^k| < 2^22`, the split is exact: `lo` is the float `x - x_hi * 2^-k`, and
    `|x * 2^k - x_hi| ≤ 1/2`. -/
theorem roundingReduction_exact (hk : k ≤ 100) (hx : x.isInfOrNan = false)
    (h1 : 1 / 2 ≤ |x.toRat * 2 ^ (k : Int)|) (h2 : |x.toRat * 2 ^ (k : Int)| < 2 ^ 22) :
    (roundingReduction k mode x).2.Within
      (x.toRat - (roundingReduction k mode x).1 * 2 ^ (-(k : Int)))
      (x.toRat - (roundingReduction k mode x).1 * 2 ^ (-(k : Int))) ∧
    |x.toRat * 2 ^ (k : Int) - (roundingReduction k mode x).1| ≤ 1 / 2 := by
  have hnear := roundingReduction_fst_near mode hk hx h1 h2
  refine ⟨?_, hnear⟩
  show (sub mode x (mul mode (ofInt float mode (roundingReduction k mode x).1)
    (float.lit 1 (-(k : Int))))).Within _ _
  generalize (roundingReduction k mode x).1 = x_hi at hnear ⊢
  have h1' : (2 : ℚ) ^ (-(k : Int) - 1) ≤ |x.toRat| := by
    have hh : (2 : ℚ) ^ (-(k : Int) - 1) * 2 ^ (k : Int) = 1 / 2 := by
      rw [← two_zpow_add, show -(k : Int) - 1 + k = -1 by ring]; norm_num
    rw [abs_mul, abs_of_pos (two_zpow_pos _)] at h1
    exact le_of_mul_le_mul_right (hh ▸ h1) (two_zpow_pos _)
  exact residual_within mode hk hx h1' h2 (by linarith)

/-- `n + 1/2` is a float for `n < 2^22`. -/
theorem finiteValue_add_half {n : Nat} (hn : n < 2 ^ 22) : float.FiniteValue (n + 1 / 2) := by
  convert finiteValue_int_mul (F := float) (m := 2 * n + 1) (q := -1) (by simp) (by simp; omega)
    (by simp) using 1
  push_cast; ring

/-- For every finite `x` with `-A ≤ x * 2^k ≤ B`, `-A ≤ x_hi ≤ B`: rounding `x * 2^k ± 1/2` never
    leaves `[-(A + 1/2), B + 1/2]`. -/
theorem roundingReduction_fst_mem (hk : k ≤ 100) (hx : x.isInfOrNan = false) {A B : Nat}
    (hA : A < 2 ^ 22) (hB : B < 2 ^ 22) (hlo : -(A : ℚ) ≤ x.toRat * 2 ^ (k : Int))
    (hhi : x.toRat * 2 ^ (k : Int) ≤ B) :
    -(A : Int) ≤ (roundingReduction k mode x).1 ∧ (roundingReduction k mode x).1 ≤ B := by
  have hA' : (A : ℚ) < 2 ^ 22 := by exact_mod_cast hA
  have hB' : (B : ℚ) < 2 ^ 22 := by exact_mod_cast hB
  have h128 : (2 : ℚ) ^ 22 < 2 ^ (float.maxExponent + 1) := by rw [float_maxExponent]; norm_num
  have hzf : float.FiniteValue (x.toRat * 2 ^ (k : Int)) :=
    ⟨(finiteValue_toRat x hx).1.mul_two_zpow (by omega), abs_lt.mpr ⟨by linarith, by linarith⟩⟩
  have hv1 := mul_lit_within mode hx (k := k) (by omega) (by omega) hzf
  have hk2 := two_zpow_pos (k : Int)
  have hz0 : x.getSign = false → 0 ≤ x.toRat * 2 ^ (k : Int) :=
    fun hs => mul_nonneg (toRat_nonneg hx hs) hk2.le
  have hz1 : x.getSign = true → x.toRat * 2 ^ (k : Int) ≤ 0 :=
    fun hs => by nlinarith [toRat_nonpos hx hs]
  have hhalf := finiteValue_add_half (n := 0) (by norm_num)
  rw [Nat.cast_zero, zero_add] at hhalf
  simp only [roundingReduction]
  generalize x.toRat * 2 ^ (k : Int) = z at hlo hhi hzf hv1 hz0 hz1
  cases hs : x.getSign
  · -- a rounding of `z + 1/2 ∈ [1/2, B + 1/2]`
    have hh := half_within false
    simp only [Bool.false_eq_true, if_false] at hh ⊢
    have hw := add_within mode hv1.isInfOrNan_eq hh.isInfOrNan_eq hhalf
      (finiteValue_add_half hB) (by rw [hv1.toRat_eq, hh.toRat_eq]; linarith [hz0 hs])
      (by rw [hv1.toRat_eq, hh.toRat_eq]; linarith)
    rw [toIntTrunc_eq hw.isInfOrNan_eq, if_pos (by linarith [hw.le_toRat])]
    have hfB : ⌊(B : ℚ) + 1 / 2⌋ = B :=
      Int.floor_eq_iff.mpr ⟨by push_cast; linarith, by push_cast; linarith⟩
    have h0 : 0 ≤ ⌊(add mode (mul mode x (float.lit 1 k)) (float.lit 1 (-1))).toRat⌋ :=
      Int.floor_nonneg.mpr (by linarith [hw.le_toRat])
    exact ⟨by omega, hfB ▸ Int.floor_mono hw.toRat_le⟩
  · -- a rounding of `z - 1/2 ∈ [-(A + 1/2), -1/2]`
    have hh := half_within true
    simp only [if_true] at hh ⊢
    have hw := add_within mode hv1.isInfOrNan_eq hh.isInfOrNan_eq
      (finiteValue_add_half hA).neg hhalf.neg (by rw [hv1.toRat_eq, hh.toRat_eq]; linarith)
      (by rw [hv1.toRat_eq, hh.toRat_eq]; linarith [hz1 hs])
    rw [toIntTrunc_eq hw.isInfOrNan_eq, if_neg (by linarith [hw.toRat_le])]
    have hfA : ⌈-((A : ℚ) + 1 / 2)⌉ = -A :=
      Int.ceil_eq_iff.mpr ⟨by push_cast; linarith, by push_cast; linarith⟩
    have h0 : ⌈(add mode (mul mode x (float.lit 1 k)) (float.lit 1 (-1)).neg).toRat⌉ ≤ 0 :=
      Int.ceil_le.mpr (by push_cast; linarith [hw.toRat_le])
    exact ⟨hfA ▸ Int.ceil_mono hw.le_toRat, by omega⟩

end RoundingReduction

/-! ### `truncReduction` -/

section TruncReduction
variable (mode : RoundingMode) {x : FloatBits}

/-- For `2^-8 ≤ |x| < 2^15` every step of `truncReduction` is exact, and the corrections bring the
    residual into `[-2^-8, 2^-8)`: `x = x_hi * 2^-7 + lo` with `lo` a `double`. -/
theorem truncReduction_exact (hx : x.isInfOrNan = false) (h1 : (2 : ℚ) ^ (-8 : Int) ≤ |x.toRat|)
    (h2 : |x.toRat| < 2 ^ 15) :
    (truncReduction mode x).2.isInfOrNan = false ∧
      x.toRat = (truncReduction mode x).1 * 2 ^ (-7 : Int) + (truncReduction mode x).2.toRat ∧
      -2 ^ (-8 : Int) ≤ (truncReduction mode x).2.toRat ∧
      (truncReduction mode x).2.toRat < 2 ^ (-8 : Int) := by
  have h128 : (2 : ℚ) ^ (7 : Int) = 128 := by norm_num
  have hz : |x.toRat * 2 ^ (7 : Int)| < 2 ^ 22 := by
    rw [abs_mul, h128, abs_of_pos (by norm_num : (0 : ℚ) < 128)]; linarith
  have hzf : float.FiniteValue (x.toRat * 2 ^ (7 : Int)) :=
    ⟨(finiteValue_toRat x hx).1.mul_two_zpow (by norm_num),
      hz.trans_le (by rw [float_maxExponent]; norm_num)⟩
  have hv1 := mul_lit_within mode hx (k := 7) (by norm_num) (by norm_num) hzf
  -- `x_hi` truncates `z = x * 2^7`
  have hnear : |x.toRat * 2 ^ (7 : Int) - (mul mode x (float.lit 1 7)).toIntTrunc| < 1 := by
    rw [toIntTrunc_eq hv1.isInfOrNan_eq, hv1.toRat_eq]
    split_ifs
    · have := Int.floor_le (x.toRat * 2 ^ (7 : Int))
      have := Int.lt_floor_add_one (x.toRat * 2 ^ (7 : Int))
      rw [abs_lt]; constructor <;> linarith
    · have := Int.le_ceil (x.toRat * 2 ^ (7 : Int))
      have := Int.ceil_lt_add_one (x.toRat * 2 ^ (7 : Int))
      rw [abs_lt]; constructor <;> linarith
  have h1' : (2 : ℚ) ^ (-((7 : Nat) : Int) - 1) ≤ |x.toRat| := by norm_num at h1 ⊢; exact h1
  have hr := residual_within mode (k := 7) (by norm_num) hx h1' hz hnear
  have hfr := fun i => finiteValue_sub_int_mul (finiteValue_toRat x hx).1 (k := 7) (by norm_num)
    h1' (i := i)
  simp only [Nat.cast_ofNat] at hr hfr
  unfold truncReduction
  dsimp only
  generalize (mul mode x (float.lit 1 7)).toIntTrunc = x_hi at hnear hr
  generalize sub mode x (mul mode (ofInt float mode x_hi) (float.lit 1 (-7))) = r at hr
  -- the residual `r = x - x_hi * 2^-7`, in `double`, and the constants it is compared with
  have hfd : double.FiniteValue (x.toRat - x_hi * 2 ^ (-7 : Int)) :=
    FiniteValue.toDouble (hr.toRat_eq ▸ finiteValue_toRat r hr.isInfOrNan_eq)
  have hxd := convert_within (G := double) mode hr.isInfOrNan_eq hfd hfd
    (by rw [hr.toRat_eq]) (by rw [hr.toRat_eq])
  have hd7 := lit_one_within (F := double) (k := -7) (by simp) (by simp)
  have hl8 := lit_one_within (F := float) (k := -8) (by simp) (by simp)
  have hle : (float.lit 1 (-8)).le r = decide (2 ^ (-8 : Int) ≤ x.toRat - x_hi * 2 ^ (-7 : Int)) := by
    rw [le_eq_decide hl8.isInfOrNan_eq hr.isInfOrNan_eq, hl8.toRat_eq, hr.toRat_eq]
  have hlt : r.lt (float.lit 1 (-8)).neg =
      decide (x.toRat - x_hi * 2 ^ (-7 : Int) < -2 ^ (-8 : Int)) := by
    rw [lt_eq_decide hr.isInfOrNan_eq (by rw [isInfOrNan_neg]; exact hl8.isInfOrNan_eq),
      toRat_neg hl8.isInfOrNan_eq, hl8.toRat_eq, hr.toRat_eq]
  rw [hle, hlt]
  have h7 : (2 : ℚ) ^ (-7 : Int) = 1 / 128 := by norm_num
  have h8 : (2 : ℚ) ^ (-8 : Int) = 1 / 256 := by norm_num
  rw [h128] at hnear
  rw [abs_lt] at hnear
  by_cases hA : 2 ^ (-8 : Int) ≤ x.toRat - x_hi * 2 ^ (-7 : Int)
  · -- a residual of at least `2^-8`: `x_hi + 1` and `lo = r - 2^-7`
    have hB : ¬x.toRat - x_hi * 2 ^ (-7 : Int) < -2 ^ (-8 : Int) := by
      rw [h7, h8] at hA ⊢; linarith
    rw [decide_eq_true hA, if_pos rfl]
    dsimp only
    rw [decide_eq_false hB, if_neg Bool.false_ne_true]
    dsimp only
    have hi : |x.toRat * 2 ^ (7 : Int) - ↑(x_hi + 1)| < 1 := by
      rw [h128, abs_lt]; push_cast; rw [h7, h8] at hA
      constructor <;> linarith
    have hf := FiniteValue.toDouble (hfr (x_hi + 1) hi)
    have hw := sub_within mode hxd.isInfOrNan_eq hd7.isInfOrNan_eq hf hf
      (by rw [hxd.toRat_eq, hd7.toRat_eq]; push_cast; linarith)
      (by rw [hxd.toRat_eq, hd7.toRat_eq]; push_cast; linarith)
    refine ⟨hw.isInfOrNan_eq, ?_, ?_, ?_⟩ <;> rw [hw.toRat_eq] <;> push_cast
    · ring
    · rw [h7, h8] at hA ⊢; linarith
    · rw [h7, h8] at hA ⊢; linarith
  · rw [decide_eq_false hA, if_neg Bool.false_ne_true]
    dsimp only
    by_cases hB : x.toRat - x_hi * 2 ^ (-7 : Int) < -2 ^ (-8 : Int)
    · -- a residual below `-2^-8`: `x_hi - 1` and `lo = r + 2^-7`
      rw [decide_eq_true hB, if_pos rfl]
      dsimp only
      have hi : |x.toRat * 2 ^ (7 : Int) - ↑(x_hi - 1)| < 1 := by
        rw [h128, abs_lt]; push_cast; rw [h7, h8] at hB
        constructor <;> linarith
      have hf := FiniteValue.toDouble (hfr (x_hi - 1) hi)
      have hw := add_within mode hxd.isInfOrNan_eq hd7.isInfOrNan_eq hf hf
        (by rw [hxd.toRat_eq, hd7.toRat_eq]; push_cast; linarith)
        (by rw [hxd.toRat_eq, hd7.toRat_eq]; push_cast; linarith)
      refine ⟨hw.isInfOrNan_eq, ?_, ?_, ?_⟩ <;> rw [hw.toRat_eq] <;> push_cast
      · ring
      · rw [h7, h8] at hB ⊢; linarith
      · rw [h7, h8] at hB ⊢; linarith
    · -- a residual in `[-2^-8, 2^-8)`: no correction
      rw [decide_eq_false hB, if_neg Bool.false_ne_true]
      dsimp only
      refine ⟨hxd.isInfOrNan_eq, ?_, ?_, ?_⟩ <;> rw [hxd.toRat_eq]
      · ring
      · exact le_of_not_lt hB
      · exact lt_of_not_le hA

end TruncReduction

end LlvmLibc.Math
