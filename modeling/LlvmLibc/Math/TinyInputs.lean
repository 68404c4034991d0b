import LlvmLibc.Math.Sincosf
import LlvmLibc.Math.RangeReduction
import LlvmLibc.Math.FloatGrid
import Mathlib.Analysis.SpecialFunctions.Trigonometric.Bounds
import Mathlib.Analysis.SpecialFunctions.Pow.Real
import Mathlib.Data.Complex.ExponentialBounds

/-! The tiny-input branches (§3, rule 3): below a threshold each function returns a closed form whose
rounding, in every rounding mode, is that of the true result.

`sincosf` below `2^-12` rounds `x - x/2^25` (exact in `double`) and `1 - |x|/2^25` (rounded once in
`double`), `expf` and `exp2f` up to `2^-26` round `1 + x`, and the generic `expm1f` below `2^-25`
rounds `x * x + x` once with `fma`. In each case the computed value and the true value lie in the
same half of the same cell between two adjacent floats, or the computed value lies at the midpoint
of a cell whose lower end is odd, so every mode gives both the same correct rounding: these branches
are correctly rounded (`sincosf_tiny_correctly_rounded`, `expf_tiny_correctly_rounded`,
`exp2f_tiny_correctly_rounded`, `Generic.expm1f_tiny_correctly_rounded`).

The `expm1f` of `unnamed/part_005` computes `multiply_add(x, x, x)`, which rounds `x * x` before the
sum on a target without FMA. Below `2^-75` the square rounds to zero toward zero, and for a negative
`x` the result is `x` itself, while `e^x - 1` lies strictly between `x` and the next float toward
zero (`Part005.expm1f_tiny_towardZero`). -/

namespace LlvmLibc.Math
open FPUtil FPUtil.FPBits FPUtil.FloatProperties FloatBits

/-! ### The true values -/

section Bounds
variable {t : ℝ}

theorem sin_mem_of_tiny (h0 : 0 < t) (h : t < 1 / 2 ^ 12) : t - t / 2 ^ 25 < Real.sin t ∧ Real.sin t < t := by
  have h2 : t * t ^ 2 < t * (1 / 2 ^ 24) := mul_lt_mul_of_pos_left (by nlinarith) h0
  exact ⟨by linarith [Real.sin_gt_sub_cube h0 (by linarith)], Real.sin_lt h0⟩

theorem cos_mem_of_tiny (h0 : 0 < t) (h : t < 1 / 2 ^ 12) : 1 - 1 / 2 ^ 25 < Real.cos t ∧ Real.cos t < 1 := by
  refine ⟨by nlinarith [Real.one_sub_sq_div_two_le_cos (x := t)], lt_of_le_of_ne (Real.cos_le_one t)
    fun h1 => ?_⟩
  have := (Real.cos_eq_one_iff_of_lt_of_lt (by linarith [Real.two_le_pi])
    (by linarith [Real.two_le_pi])).mp h1
  linarith

theorem exp_le_of_abs_le (h : |t| ≤ 1) : Real.exp t ≤ 1 + t + t ^ 2 := by
  linarith [le_abs_self (Real.exp t - 1 - t), Real.abs_exp_sub_one_sub_id_le h]

theorem exp_mem_of_pos (h0 : 0 < t) (h : t ≤ 1 / 2 ^ 26) : 1 < Real.exp t ∧ Real.exp t ≤ 1 + 1 / 2 ^ 25 :=
  ⟨Real.one_lt_exp_iff.mpr h0, by
    nlinarith [exp_le_of_abs_le (t := t) (by rw [abs_of_pos h0]; linarith)]⟩

theorem exp_mem_of_neg (h0 : t < 0) (h : -(1 / 2 ^ 26) ≤ t) :
    1 - 1 / 2 ^ 25 < Real.exp t ∧ Real.exp t < 1 :=
  ⟨by linarith [Real.add_one_lt_exp h0.ne], Real.exp_lt_one_iff.mpr h0⟩

/-- `2^t` is `e^(t log 2)` with `0 < log 2 < 1`. -/
theorem two_rpow_mem (h : |t| ≤ 1 / 2 ^ 26) :
    (0 < t → 1 < (2 : ℝ) ^ t ∧ (2 : ℝ) ^ t ≤ 1 + 1 / 2 ^ 25) ∧
      (t < 0 → 1 - 1 / 2 ^ 25 < (2 : ℝ) ^ t ∧ (2 : ℝ) ^ t < 1) := by
  rw [Real.rpow_def_of_pos two_pos]
  have h1 := Real.log_pos (show (1 : ℝ) < 2 by norm_num)
  have h2 := Real.log_two_lt_d9
  rw [abs_le] at h
  refine ⟨fun h0 => exp_mem_of_pos (by positivity) ?_, fun h0 => exp_mem_of_neg ?_ ?_⟩
  · nlinarith
  · nlinarith
  · nlinarith

end Bounds

/-! ### `sincosf` -/

section Sincosf
variable (mode : RoundingMode) {x : FloatBits}

/-- `multiply_add(xd, -2^-25, xd)` in `double` is exact: `x - x/2^25` has at most 49 bits. -/
theorem multiplyAdd_sin_within (hx : x.isInfOrNan = false) :
    (multiplyAdd mode (convert double mode x) (double.lit 1 (-25)).neg (convert double mode x)).Within
      (x.toRat - x.toRat / 2 ^ 25) (x.toRat - x.toRat / 2 ^ 25) := by
  have hf := FiniteValue.toDouble (finiteValue_toRat x hx)
  have hxd := convert_within (G := double) mode hx hf hf le_rfl le_rfl
  have hl := lit_one_within (F := double) (k := -25) (by simp) (by simp)
  have hc : (double.lit 1 (-25)).neg.toRat = -(1 / 2 ^ 25) := by
    rw [toRat_neg hl.isInfOrNan_eq, hl.toRat_eq]; norm_num
  have hv1 : double.FiniteValue (x.toRat * -(1 / 2 ^ 25)) := by
    convert finiteValue_double_mul hx (m := -1) (k := -25) (by decide) (by norm_num) (by norm_num)
      using 2
    norm_num
  have hv2 : double.FiniteValue (x.toRat - x.toRat / 2 ^ 25) := by
    convert finiteValue_double_mul hx (m := 2 ^ 25 - 1) (k := -25) (by decide) (by norm_num)
      (by norm_num) using 1
    norm_num; ring
  have hm := mul_within mode hxd.isInfOrNan_eq (by rw [isInfOrNan_neg]; exact hl.isInfOrNan_eq)
    hv1 hv1 (by rw [hxd.toRat_eq, hc]) (by rw [hxd.toRat_eq, hc])
  exact add_within mode hm.isInfOrNan_eq hxd.isInfOrNan_eq hv2 hv2
    (by rw [hm.toRat_eq, hxd.toRat_eq]; linarith) (by rw [hm.toRat_eq, hxd.toRat_eq]; linarith)

theorem toRat_ofNat_lt_two_pow_neg_twelve {u : Nat} (h : u < 0x39800000) :
    (ofNat float u).toRat < 1 / 2 ^ 12 := by
  have := toRat_ofNat_lt_two_zpow (E := 115) h (by norm_num) (by norm_num)
  norm_num at this ⊢
  exact this

/-- Below `2^-12`, the `sin` of `sincosf` is a finite float, `sin x` correctly rounded. -/
theorem sinTiny_isRounding (hx : x.isInfOrNan = false) (h0 : x.uintval % 0x80000000 ≠ 0)
    (h : x.uintval % 0x80000000 < 0x39800000) :
    (convert float mode (multiplyAdd mode (convert double mode x) (double.lit 1 (-25)).neg
        (convert double mode x))).isInfOrNan = false ∧
      float.IsRounding mode (Real.sin x.toRat)
        (convert float mode (multiplyAdd mode (convert double mode x) (double.lit 1 (-25)).neg
          (convert double mode x))).toRat := by
  have hw := multiplyAdd_sin_within mode hx
  generalize multiplyAdd mode (convert double mode x) (double.lit 1 (-25)).neg
    (convert double mode x) = m at hw ⊢
  have hu := Nat.pos_of_ne_zero h0
  have hX0 := toRat_ofNat_pos hu (by omega)
  have hX1 := toRat_ofNat_lt_two_pow_neg_twelve h
  have hfX := finiteValue_toRat _ (isInfOrNan_ofNat (show x.uintval % 0x80000000 < 0x7f800000 by omega))
  have hxX := toRat_eq_or_eq_neg hx
  set X := (ofNat float (x.uintval % 0x80000000)).toRat
  have hb1 : -X ≤ m.toRat := by
    rw [hw.toRat_eq]; rcases hxX with h | h <;> rw [h] <;> linarith only [hX0]
  have hb2 : m.toRat ≤ X := by
    rw [hw.toRat_eq]; rcases hxX with h | h <;> rw [h] <;> linarith only [hX0]
  refine ⟨(convert_within mode hw.isInfOrNan_eq hfX.neg hfX hb1 hb2).isInfOrNan_eq, ?_⟩
  have hr := convert_isRounding mode hw.isInfOrNan_eq hfX.neg hfX hb1 hb2
  rw [hw.toRat_eq] at hr
  have hX0' : (0 : ℝ) < X := by exact_mod_cast hX0
  have hsin := sin_mem_of_tiny hX0'
    (by have := (Rat.cast_lt (K := ℝ)).mpr hX1; push_cast at this; exact this)
  rcases hxX with hxX | hxX <;> rw [hxX] at hr ⊢
  · exact isRounding_congr_below hu (by omega) (by push_cast; linarith only)
      (by push_cast; linarith only [hX0']) hsin.1 hsin.2 hr
  · have := (isRounding_congr_below hu (by omega) (by push_cast; linarith only)
      (by push_cast; linarith only [hX0']) hsin.1 hsin.2 hr.neg).neg
    rwa [RoundingMode.neg_neg, neg_neg, ← Real.sin_neg, ← Rat.cast_neg] at this

theorem toRat_one : (ofNat float 0x3f800000).toRat = 1 := by
  rw [show (0x3f800000 : Nat) = 127 * 0x800000 from rfl,
    toRat_ofNat_two_pow (by norm_num) (by norm_num)]
  norm_num

theorem toRat_pred_one : (ofNat float 0x3f7fffff).toRat = 1 - 1 / 2 ^ 24 := by
  have := toRat_ofNat_succ (u := 0x3f7fffff) (by norm_num)
  rw [show (0x3f7fffff + 1 : Nat) = 0x3f800000 from rfl, toRat_one,
    show ulpExp 0x3f7fffff = -24 from rfl] at this
  norm_num at this ⊢
  linarith

/-- Below `2^-12`, the `cos` of `sincosf` is a finite float, `cos x` correctly rounded:
    `1 - |x|/2^25`, rounded in `double`, stays in `[1 - 2^-36, 1]` and below `1` when rounded
    downward or toward zero. -/
theorem cosTiny_isRounding {u : Nat} (h0 : 0 < u) (h : u < 0x39800000) :
    (convert float mode (multiplyAdd mode (convert double mode (ofNat float u))
        (double.lit 1 (-25)).neg (double.lit 1 0))).isInfOrNan = false ∧
      float.IsRounding mode (Real.cos (ofNat float u).toRat)
        (convert float mode (multiplyAdd mode (convert double mode (ofNat float u))
          (double.lit 1 (-25)).neg (double.lit 1 0))).toRat := by
  have hxu := isInfOrNan_ofNat (show u < 0x7f800000 by omega)
  have hX0 := toRat_ofNat_pos h0 (by omega)
  have hX1 := toRat_ofNat_lt_two_pow_neg_twelve h
  have hf := FiniteValue.toDouble (finiteValue_toRat _ hxu)
  have hxd := convert_within (G := double) mode hxu hf hf le_rfl le_rfl
  have hl := lit_one_within (F := double) (k := -25) (by simp) (by simp)
  have hc : (double.lit 1 (-25)).neg.toRat = -(1 / 2 ^ 25) := by
    rw [toRat_neg hl.isInfOrNan_eq, hl.toRat_eq]; norm_num
  have hv1 : double.FiniteValue ((ofNat float u).toRat * -(1 / 2 ^ 25)) := by
    convert finiteValue_double_mul hxu (m := -1) (k := -25) (by decide) (by norm_num) (by norm_num)
      using 2
    norm_num
  have hm := mul_within mode hxd.isInfOrNan_eq (by rw [isInfOrNan_neg]; exact hl.isInfOrNan_eq)
    hv1 hv1 (by rw [hxd.toRat_eq, hc]) (by rw [hxd.toRat_eq, hc])
  have h1 := lit_one_within (F := double) (k := 0) (by simp) (by simp)
  have hone : (double.lit 1 0).toRat = 1 := by rw [h1.toRat_eq]; norm_num
  have hlo : double.FiniteValue (1 - 1 / 2 ^ 36) := by
    convert finiteValue_int_mul (F := double) (m := 2 ^ 36 - 1) (q := -36) (by simp) (by norm_num)
      (by simp) using 1
    norm_num
  have hhi : double.FiniteValue 1 := by simpa [hone] using finiteValue_toRat _ h1.isInfOrNan_eq
  set X := (ofNat float u).toRat
  -- `1 - X/2^25` lies in `[1 - 2^-36, 1)`, where `double` rounds it
  have hav : 1 - 1 / 2 ^ 36 ≤ (mul mode (convert double mode (ofNat float u))
      (double.lit 1 (-25)).neg).toRat + (double.lit 1 0).toRat := by
    rw [hm.toRat_eq, hone]; linarith only [hX1]
  have hvb : (mul mode (convert double mode (ofNat float u)) (double.lit 1 (-25)).neg).toRat +
      (double.lit 1 0).toRat ≤ 1 := by
    rw [hm.toRat_eq, hone]; linarith only [hX0]
  have hw := add_within mode hm.isInfOrNan_eq h1.isInfOrNan_eq hlo hhi hav hvb
  have hwr := add_isRounding mode hm.isInfOrNan_eq h1.isInfOrNan_eq hlo hhi hav hvb
  rw [hm.toRat_eq, hone] at hwr
  simp only [multiplyAdd]
  generalize add mode (mul mode (convert double mode (ofNat float u)) (double.lit 1 (-25)).neg)
    (double.lit 1 0) = m at hw hwr ⊢
  have hfa := finiteValue_toRat _ (isInfOrNan_ofNat (u := 0x3f7fffff) (by norm_num))
  have hfb := finiteValue_toRat _ (isInfOrNan_ofNat (u := 0x3f800000) (by norm_num))
  have hb1 : (ofNat float 0x3f7fffff).toRat ≤ m.toRat := by
    rw [toRat_pred_one]; linarith only [hw.le_toRat]
  have hb2 : m.toRat ≤ (ofNat float 0x3f800000).toRat := by rw [toRat_one]; exact hw.toRat_le
  refine ⟨(convert_within mode hw.isInfOrNan_eq hfa hfb hb1 hb2).isInfOrNan_eq, ?_⟩
  have hr := convert_isRounding mode hw.isInfOrNan_eq hfa hfb hb1 hb2
  have hX0' : (0 : ℝ) < X := by exact_mod_cast hX0
  have hX1' : (X : ℝ) < 1 / 2 ^ 12 := by
    have := (Rat.cast_lt (K := ℝ)).mpr hX1; push_cast at this; exact this
  have hcos := cos_mem_of_tiny hX0' hX1'
  have hm1 : (1 : ℝ) - 1 / 2 ^ 36 ≤ m.toRat := by
    have := (Rat.cast_le (K := ℝ)).mpr hw.le_toRat; push_cast at this; exact this
  by_cases hlt : m.toRat < 1
  · -- `m` and `cos x` lie in the upper half of the cell below `1`
    have hlt' : (m.toRat : ℝ) < 1 := by exact_mod_cast hlt
    refine isRounding_congr_below (u := 0x3f800000) (by norm_num) (by norm_num) ?_ ?_ ?_ ?_ hr <;>
      rw [toRat_one] <;> push_cast
    · linarith only [hm1]
    · exact hlt'
    · exact hcos.1
    · exact hcos.2
  · -- `double` rounded `1 - X/2^25` up to `1`: only to nearest or upward, where `cos x` also
    -- rounds to `1`
    have heq : m.toRat = 1 := le_antisymm hw.toRat_le (not_lt.mp hlt)
    rw [heq] at hr hwr
    rw [IsRounding.eq_self (by rw [← toRat_one]; exact finiteValue_toRat _ (isInfOrNan_ofNat
      (by norm_num))) hr]
    have hV : (ofNat float (0x3f7fffff + 1)).toRat = 1 := toRat_one
    have hmid : (((ofNat float 0x3f7fffff).toRat : ℚ) : ℝ) + ((ofNat float (0x3f7fffff + 1)).toRat : ℚ)
        < 2 * Real.cos X := by
      rw [toRat_pred_one, hV]; push_cast; linarith only [hcos.1]
    have hup := (adjacent_ofNat (u := 0x3f7fffff) (by norm_num)).isRounding_upper hmid
      (by rw [hV]; push_cast; exact hcos.2)
    rw [hV] at hup
    rcases hwr.eq_toNearest_or_upward (by push_cast; linarith only [hX1'])
      (by push_cast; linarith only [hX0']) with rfl | rfl
    · exact hup .toNearest
    · exact hup .upward

/-- Below `2^-12`, in every rounding mode, `sincosf` returns finite floats whose values are
    `sin x` and `cos x` correctly rounded. -/
theorem sincosf_tiny_correctly_rounded (E : SincosfEval) (env : FEnv) (x : FloatBits)
    (h : x.uintval % 0x80000000 < 0x39800000) :
    (sincosf E env x).1.1.isInfOrNan = false ∧
      float.IsRounding env.round (Real.sin x.toRat) (sincosf E env x).1.1.toRat ∧
    (sincosf E env x).1.2.isInfOrNan = false ∧
      float.IsRounding env.round (Real.cos x.toRat) (sincosf E env x).1.2.toRat := by
  have hx : x.isInfOrNan = false := FloatBits.isInfOrNan_eq_false (by omega)
  by_cases h0 : x.uintval % 0x80000000 = 0
  · have hz : x.toRat = 0 := by
      rw [toRat_eq_magnitude hx, h0, toRat_ofNat_eq (by norm_num)]; simp [sig]
    have hl := lit_one_within (F := float) (k := 0) (by simp) (by simp)
    have hone : (float.lit 1 0).toRat = 1 := by rw [hl.toRat_eq]; norm_num
    simp only [sincosf, FloatBits.land_abs, h0, if_pos (show 0 < 0x39800000 by decide), if_true]
    refine ⟨hx, ?_, hl.isInfOrNan_eq, ?_⟩
    · rw [hz]; simpa using isRounding_self (finiteValue_zero (F := float)) env.round
    · rw [hz, hone]
      simpa using isRounding_self (finiteValue_two_zpow (F := float) (k := 0) (by simp) (by simp))
        env.round
  · have hc : Real.cos x.toRat = Real.cos (ofNat float (x.uintval % 0x80000000)).toRat := by
      rw [toRat_eq_magnitude hx]; split_ifs <;> simp [Real.cos_neg]
    have hs := sinTiny_isRounding env.round hx h0 h
    have hcs := cosTiny_isRounding env.round (Nat.pos_of_ne_zero h0) h
    simp only [sincosf, FloatBits.land_abs, if_pos h, if_neg h0]
    rw [hc]
    exact ⟨hs.1, hs.2, hcs.1, hcs.2⟩

/-- At `2^-13`, rounded to nearest, where `x - x/2^25` is the midpoint below `x`. -/
theorem sincosf_tiny_correctly_rounded_at_two_pow :
    (ofNat float 0x39000000).uintval % 0x80000000 < 0x39800000 ∧
    float.IsRounding .toNearest (Real.sin (ofNat float 0x39000000).toRat)
      (sincosf ⟨fun _ _ _ => (zero double false, zero double false, zero double false,
        zero double false)⟩ ⟨.toNearest, 0, false⟩ (ofNat float 0x39000000)).1.1.toRat :=
  ⟨by decide, (sincosf_tiny_correctly_rounded ⟨fun _ _ _ => (zero double false, zero double false,
    zero double false, zero double false)⟩ ⟨.toNearest, 0, false⟩ (ofNat float 0x39000000)
    (by decide)).2.1⟩

end Sincosf

/-! ### `expf` and `exp2f` -/

section AddOne
variable (mode : RoundingMode) {x : FloatBits}

theorem abs_toRat_le_two_pow_neg_twentySix (hx : x.isInfOrNan = false)
    (h : x.uintval % 0x80000000 ≤ 0x32800000) : |x.toRat| ≤ 1 / 2 ^ 26 := by
  have := abs_toRat_le hx (by norm_num) h
  rw [show (0x32800000 : Nat) = 101 * 0x800000 from rfl,
    toRat_ofNat_two_pow (by norm_num) (by norm_num)] at this
  norm_num at this ⊢
  exact this

/-- Up to `2^-26`, `1 + x` rounded once in `float` is `f x` correctly rounded for every `f` with
    `f 0 = 1` that stays within `2^-25` of `1`, on the side of `1` where `1 + x` lies: both lie in
    the lower half of the cell above `1`, or in the upper half of the cell below it. -/
theorem add_one_isRounding (f : ℝ → ℝ) (hf0 : f 0 = 1)
    (hpos : ∀ t : ℝ, 0 < t → t ≤ 1 / 2 ^ 26 → 1 < f t ∧ f t ≤ 1 + 1 / 2 ^ 25)
    (hneg : ∀ t : ℝ, t < 0 → -(1 / 2 ^ 26) ≤ t → 1 - 1 / 2 ^ 25 < f t ∧ f t < 1)
    (hx : x.isInfOrNan = false) (h : x.uintval % 0x80000000 ≤ 0x32800000) :
    (add mode (float.lit 1 0) x).isInfOrNan = false ∧
      float.IsRounding mode (f x.toRat) (add mode (float.lit 1 0) x).toRat := by
  have hl := lit_one_within (F := float) (k := 0) (by simp) (by simp)
  have hone : (float.lit 1 0).toRat = 1 := by rw [hl.toRat_eq]; norm_num
  have habs' := abs_le.mp (abs_toRat_le_two_pow_neg_twentySix hx h)
  have habs : -(1 / 2 ^ 26) ≤ (x.toRat : ℝ) ∧ (x.toRat : ℝ) ≤ 1 / 2 ^ 26 := by
    have h1 := (Rat.cast_le (K := ℝ)).mpr habs'.1
    have h2 := (Rat.cast_le (K := ℝ)).mpr habs'.2
    push_cast at h1 h2
    exact ⟨h1, h2⟩
  have ha := finiteValue_two_zpow (F := float) (k := -1) (by simp) (by simp)
  have hb := finiteValue_two_zpow (F := float) (k := 1) (by simp) (by simp)
  have hav : 2 ^ (-1 : ℤ) ≤ (float.lit 1 0).toRat + x.toRat := by
    rw [hone, zpow_neg_one]; linarith only [habs'.1]
  have hvb : (float.lit 1 0).toRat + x.toRat ≤ 2 ^ (1 : ℤ) := by
    rw [hone, zpow_one]; linarith only [habs'.2]
  refine ⟨(add_within mode hl.isInfOrNan_eq hx ha hb hav hvb).isInfOrNan_eq, ?_⟩
  have hr := add_isRounding mode hl.isInfOrNan_eq hx ha hb hav hvb
  rw [hone] at hr
  have hX : ((ofNat float 0x3f800000).toRat : ℝ) = 1 := by rw [toRat_one]; norm_num
  rcases lt_trichotomy (x.toRat : ℝ) 0 with hlt | heq | hgt
  · have hf := hneg _ hlt habs.1
    refine isRounding_congr_below (u := 0x3f800000) (by norm_num) (by norm_num) ?_ ?_ ?_ ?_ hr <;>
      rw [hX] <;> push_cast
    · linarith only [habs.1]
    · linarith only [hlt]
    · exact hf.1
    · exact hf.2
  · rw [heq, hf0]
    rw [show x.toRat = 0 by exact_mod_cast heq, add_zero] at hr
    exact_mod_cast hr
  · have hf := hpos _ hgt habs.2
    refine isRounding_congr_above (u := 0x3f800000) (by norm_num) ?_ ?_ ?_ ?_ hr <;>
      rw [hX] <;> push_cast
    · linarith only [hgt]
    · linarith only [habs.2]
    · exact hf.1
    · exact hf.2

theorem expf_of_tiny (T : ExpTables) (env : FEnv) (h : x.uintval % 0x80000000 ≤ 0x32800000) :
    expf T env x = (add env.round (float.lit 1 0) x, env) := by
  have hE : x.getUnbiasedExponent ≤ 101 := by rw [getUnbiasedExponent_eq]; omega
  simp only [expf, land_abs, if_neg (show x.uintval ≠ 0xc236bd8c by omega), if_pos (Or.inr h),
    if_pos hE]

/-- Up to `2^-26`, in every rounding mode, `expf` returns a finite float whose value is `e^x`
    correctly rounded, and leaves the environment as it was. -/
theorem expf_tiny_correctly_rounded (T : ExpTables) (env : FEnv) (x : FloatBits)
    (h : x.uintval % 0x80000000 ≤ 0x32800000) :
    (expf T env x).1.isInfOrNan = false ∧
      float.IsRounding env.round (Real.exp x.toRat) (expf T env x).1.toRat ∧ (expf T env x).2 = env := by
  rw [expf_of_tiny T env h]
  have hr := add_one_isRounding env.round Real.exp Real.exp_zero (fun _ => exp_mem_of_pos)
    (fun _ => exp_mem_of_neg) (isInfOrNan_eq_false (by omega)) h
  exact ⟨hr.1, hr.2, rfl⟩

/-- At `-2^-26`, rounded upward. -/
theorem expf_tiny_correctly_rounded_at_neg_two_pow :
    (ofNat float 0xb2800000).uintval % 0x80000000 ≤ 0x32800000 ∧
    float.IsRounding .upward (Real.exp (ofNat float 0xb2800000).toRat)
      (expf ⟨fun _ => zero double false, fun _ => zero double false⟩ ⟨.upward, 0, false⟩
        (ofNat float 0xb2800000)).1.toRat :=
  ⟨by decide, (expf_tiny_correctly_rounded ⟨fun _ => zero double false, fun _ => zero double false⟩
    ⟨.upward, 0, false⟩ (ofNat float 0xb2800000) (by decide)).2.1⟩

theorem exp2f_of_tiny (env : FEnv) (h : x.uintval % 0x80000000 ≤ 0x32800000) :
    exp2f env x = (add env.round (float.lit 1 0) x, env) := by
  have hn : exp2fExceptional env.round x.uintval = none := by
    simp (disch := omega) only [exp2fExceptional, if_neg]
  simp only [exp2f, land_abs, hn, if_pos (Or.inr h), if_pos h]

/-- Up to `2^-26`, in every rounding mode, `exp2f` returns a finite float whose value is `2^x`
    correctly rounded, and leaves the environment as it was. -/
theorem exp2f_tiny_correctly_rounded (env : FEnv) (x : FloatBits)
    (h : x.uintval % 0x80000000 ≤ 0x32800000) :
    (exp2f env x).1.isInfOrNan = false ∧
      float.IsRounding env.round ((2 : ℝ) ^ (x.toRat : ℝ)) (exp2f env x).1.toRat ∧
      (exp2f env x).2 = env := by
  rw [exp2f_of_tiny env h]
  have hr := add_one_isRounding env.round (fun t => (2 : ℝ) ^ t) (Real.rpow_zero 2)
    (fun t h0 h => (two_rpow_mem (abs_le.mpr ⟨by linarith, h⟩)).1 h0)
    (fun t h0 h => (two_rpow_mem (abs_le.mpr ⟨h, by linarith⟩)).2 h0)
    (isInfOrNan_eq_false (by omega)) h
  exact ⟨hr.1, hr.2, rfl⟩

/-- At `2^-26`, rounded toward zero. -/
theorem exp2f_tiny_correctly_rounded_at_two_pow :
    (ofNat float 0x32800000).uintval % 0x80000000 ≤ 0x32800000 ∧
    float.IsRounding .towardZero ((2 : ℝ) ^ ((ofNat float 0x32800000).toRat : ℝ))
      (exp2f ⟨.towardZero, 0, false⟩ (ofNat float 0x32800000)).1.toRat :=
  ⟨by decide, (exp2f_tiny_correctly_rounded ⟨.towardZero, 0, false⟩ (ofNat float 0x32800000)
    (by decide)).2.1⟩

end AddOne

/-! ### `expm1f` -/

section Expm1f
variable (mode : RoundingMode) {x : FloatBits}

theorem Generic.expm1f_of_tiny (T : ExpTables) (env : FEnv) (h : x.uintval % 0x80000000 < 0x33000000) :
    Generic.expm1f T env x =
      if x.uintval = 0x80000000 then (x, env) else (fma env.round x x x, env) := by
  have := uintval_lt_two_pow x
  have hE : x.getUnbiasedExponent < 102 := by rw [getUnbiasedExponent_eq]; omega
  have hs : ¬(x.getSign = false ∧ 0x42b20000 ≤ x.uintval) := by
    rw [getSign_eq]; simp only [decide_eq_false_iff_not, not_le]; omega
  simp only [Generic.expm1f, if_neg (show ¬0xc18aa123 ≤ x.uintval by omega), if_neg hs,
    if_pos (show x.getUnbiasedExponent < 123 by omega), if_pos hE]

theorem Part005.expm1f_of_tiny (T : ExpTables) (env : FEnv) (h : x.uintval % 0x80000000 < 0x33000000) :
    Part005.expm1f T env x =
      (if x.uintval = 0x80000000 then x else multiplyAdd env.round x x x, env) := by
  simp only [Part005.expm1f, land_abs, if_neg (show x.uintval ≠ 0x3e35bec5 by omega),
    if_neg (show ¬0x418aa123 ≤ x.uintval % 0x80000000 by omega), Part005.expm1fReduced,
    if_pos (show x.uintval % 0x80000000 < 0x3d800000 by omega), if_pos h]

/-- Rounded toward zero, for `-2^-75 < x < 0` the `expm1f` of `unnamed/part_005` returns the value
    of `x`: the square is below `2^-150` and rounds to `0` before the sum. But `x < e^x - 1 < 0`,
    so `e^x - 1` rounded toward zero lies above `x`: the result is not correctly rounded. -/
theorem Part005.expm1f_tiny_towardZero (T : ExpTables) (env : FEnv) (x : FloatBits)
    (hmode : env.round = .towardZero) (h1 : 0x80000000 < x.uintval) (h2 : x.uintval < 0x9a000000) :
    (Part005.expm1f T env x).1.toRat = x.toRat ∧
      ¬float.IsRounding env.round (Real.exp x.toRat - 1) (Part005.expm1f T env x).1.toRat := by
  have hx : x.isInfOrNan = false := isInfOrNan_eq_false (by omega)
  rw [Part005.expm1f_of_tiny T env (by omega), if_neg (by omega), hmode]
  have hxX : x.toRat = -(ofNat float (x.uintval % 0x80000000)).toRat := by
    rw [toRat_eq_magnitude hx, if_pos (by rw [getSign_eq]; simp only [decide_eq_true_eq]; omega)]
  have hX0 := toRat_ofNat_pos (u := x.uintval % 0x80000000) (by omega) (by omega)
  have hX1 := toRat_ofNat_lt_two_zpow (E := 52) (u := x.uintval % 0x80000000) (by omega) (by norm_num)
    (by norm_num)
  set X := (ofNat float (x.uintval % 0x80000000)).toRat
  -- the square lies in the lower half of the cell `[0, 2^-149]` and rounds to `0`
  have hA := adjacent_ofNat (u := 0) (by norm_num)
  have hV : (ofNat float 0).toRat + (ofNat float (0 + 1)).toRat = 2 ^ (-149 : ℤ) := by
    rw [toRat_ofNat_succ (by norm_num), toRat_ofNat_zero, zero_add, zero_add]; rfl
  have hsq : (ofNat float 0).toRat < x.toRat * x.toRat ∧
      2 * (x.toRat * x.toRat) < (ofNat float 0).toRat + (ofNat float (0 + 1)).toRat := by
    rw [hV, toRat_ofNat_zero, hxX, neg_mul_neg]
    refine ⟨mul_pos hX0 hX0, ?_⟩
    have := mul_lt_mul'' hX1 hX1 hX0.le hX0.le
    rw [← two_zpow_add] at this
    norm_num at this ⊢
    linarith only [this]
  have hvb : x.toRat * x.toRat ≤ (ofNat float (0 + 1)).toRat := by linarith only [hsq.1, hsq.2]
  have hm := mul_isRounding .towardZero hx hx hA.finite_lo hA.finite_hi hsq.1.le hvb
  have hm0 : (mul .towardZero x x).toRat = 0 := by
    rw [hA.eq_lower_of_isRounding (by exact_mod_cast hsq.2.le) (by exact_mod_cast hsq.1)
      (fun h => absurd h (by exact_mod_cast hsq.2.ne)) hm]
    simp [RoundingMode.lowerHalf, toRat_ofNat_zero]
  -- the sum is then `x` exactly
  have hfx := finiteValue_toRat x hx
  have hmx := mul_within .towardZero hx hx hA.finite_lo hA.finite_hi hsq.1.le hvb
  have hs := add_isRounding .towardZero hmx.isInfOrNan_eq hx hfx hfx (by rw [hm0, zero_add])
    (by rw [hm0, zero_add])
  rw [hm0, zero_add] at hs
  have hres : (multiplyAdd .towardZero x x x).toRat = x.toRat := hs.eq_self hfx
  refine ⟨hres, fun hr => ?_⟩
  rw [hres] at hr
  have hxn : (x.toRat : ℝ) < 0 := by rw [hxX]; push_cast; exact_mod_cast neg_neg_of_pos hX0
  have := (hr.2 (by linarith [Real.exp_lt_one_iff.mpr hxn])).2.1
  linarith [Real.add_one_lt_exp hxn.ne]

/-- At `-2^-80`, where the generic `expm1f` is correctly rounded. -/
theorem Part005.expm1f_tiny_towardZero_at_neg_two_pow :
    (⟨.towardZero, 0, false⟩ : FEnv).round = .towardZero ∧
    0x80000000 < (ofNat float 0x97800000).uintval ∧ (ofNat float 0x97800000).uintval < 0x9a000000 ∧
    ¬float.IsRounding .towardZero (Real.exp (ofNat float 0x97800000).toRat - 1)
      (Part005.expm1f ⟨fun _ => zero double false, fun _ => zero double false⟩ ⟨.towardZero, 0, false⟩
        (ofNat float 0x97800000)).1.toRat :=
  ⟨rfl, by decide, by decide, (Part005.expm1f_tiny_towardZero ⟨fun _ => zero double false,
    fun _ => zero double false⟩ ⟨.towardZero, 0, false⟩ (ofNat float 0x97800000) rfl (by decide)
    (by decide)).2⟩

end Expm1f

end LlvmLibc.Math
