import LlvmLibc.FPUtil.Arith

/-! What the single-precision exponential functions share (§3, §4.2, §6): the floating-point
environment they read and write, the literals and tables they use, and the two range reductions
that split `x` into `x_hi * 2^-k + lo`.

`roundingReduction k` is the reduction of `expf` (`k = 7`), `exp2f` (`k = 6`) and the `expm1f` of
`unnamed/part_005` (`k = 7`): `x_hi` truncates the float sum `x * 2^k ± 0.5`. `truncReduction` is
the one of the generic `expm1f`: `x_hi` truncates `x * 2^7`, and an explicit check moves `x_hi` by
one when the residual is outside `[-2^-8, 2^-8)`. -/

namespace LlvmLibc.Math
open FPUtil FPUtil.FPBits

/-- A `float`, as its bit pattern. -/
abbrev FloatBits := FPBits FloatProperties.float

/-- A `double`, as its bit pattern. -/
abbrev DoubleBits := FPBits FloatProperties.double

/-- Modelled from the spec: the thread's floating-point environment as the math functions see it
    (`FEnvImpl.h` is not part of the sources): the rounding mode `fputil::get_round()` reports,
    `errno`, and the sticky `FE_INVALID` flag that `fputil::set_except(FE_INVALID)` raises. -/
structure FEnv where
  round : RoundingMode
  errno : Int
  invalid : Bool
deriving DecidableEq, Repr

/-- `ERANGE`. -/
def ERANGE : Int := 34

/-- Modelled from the spec: the tables `EXP_M1` (`e^hi` for `hi = -104, ..., 89`) and `EXP_M2`
    (`e^(mid * 2^-7)` for `mid = 0, ..., 127`) of `common_constants.h`, which is not part of the
    sources. -/
structure ExpTables where
  expM1 : Nat → DoubleBits
  expM2 : Nat → DoubleBits

open FloatProperties

/-- `x_hi = static_cast<int>(x * 0x1.0p<k>f + (xbits.get_sign() ? -0.5f : 0.5f));
    x -= static_cast<float>(x_hi) * 0x1.0p-<k>f;` in `expf` (lines 86-88, `k = 7`), `exp2f`
    (lines 139-151, `k = 6`) and the `expm1f` of `unnamed/part_005` (lines 117-119, `k = 7`):
    `x_hi` and the new `x`. -/
def roundingReduction (k : Nat) (mode : RoundingMode) (x : FloatBits) : Int × FloatBits :=
  let x_hi := (add mode (mul mode x (float.lit 1 k))
    (if x.getSign then (float.lit 1 (-1)).neg else float.lit 1 (-1))).toIntTrunc
  (x_hi, sub mode x (mul mode (ofInt float mode x_hi) (float.lit 1 (-k))))

/-- Lines 107-119 of the generic `expm1f`: `x_hi = static_cast<int>(x * 0x1.0p7f)`, the residual
    `x - x_hi * 2^-7` in `float` and then in `double`, and the corrections that move `x_hi` by one
    when the `float` residual is at least `2^-8` or below `-2^-8`. -/
def truncReduction (mode : RoundingMode) (x : FloatBits) : Int × DoubleBits :=
  let x_hi := (mul mode x (float.lit 1 7)).toIntTrunc
  let x := sub mode x (mul mode (ofInt float mode x_hi) (float.lit 1 (-7)))
  let xd := convert double mode x
  let (x_hi, xd) :=
    if (float.lit 1 (-8)).le x then (x_hi + 1, sub mode xd (double.lit 1 (-7))) else (x_hi, xd)
  if x.lt (float.lit 1 (-8)).neg then (x_hi - 1, add mode xd (double.lit 1 (-7))) else (x_hi, xd)

/-! ### The two formats -/

@[simp] theorem float_mantissaWidth : float.mantissaWidth = 23 := rfl
@[simp] theorem float_minQuantum : float.minQuantum = -149 := rfl
@[simp] theorem float_maxExponent : float.maxExponent = 127 := rfl
@[simp] theorem double_mantissaWidth : double.mantissaWidth = 52 := rfl
@[simp] theorem double_minQuantum : double.minQuantum = -1074 := rfl
@[simp] theorem double_maxExponent : double.maxExponent = 1023 := rfl
@[simp] theorem double_exponentBias : double.exponentBias = 1023 := rfl

/-- Every finite value of `float` is one of `double`. -/
theorem FiniteValue.toDouble {v : ℚ} (h : float.FiniteValue v) : double.FiniteValue v := by
  obtain ⟨⟨m, q, hq, hm, rfl⟩, hlt⟩ := h
  refine ⟨⟨m, q, ?_, ?_, rfl⟩, hlt.trans_le (two_zpow_le ?_)⟩ <;> simp_all <;> omega

/-! ### The fields of a `float` -/

namespace FloatBits
variable (x : FloatBits)

theorem uintval_lt_two_pow : x.uintval < 0x100000000 := FPBits.uintval_lt x

theorem land_abs (n : Nat) : n &&& 0x7fffffff = n % 0x80000000 :=
  Nat.and_pow_two_sub_one_eq_mod n 31

theorem getSign_eq : x.getSign = decide (0x80000000 ≤ x.uintval) := by
  have := uintval_lt_two_pow x
  simp only [getSign, Nat.shiftRight_eq_div_pow]
  show (x.uintval / 2 ^ 31 == 1) = _
  by_cases h : 0x80000000 ≤ x.uintval
  · rw [decide_eq_true h]; simp only [beq_iff_eq]; omega
  · rw [decide_eq_false h]; simp only [beq_eq_false_iff_ne]; omega

theorem getUnbiasedExponent_eq : x.getUnbiasedExponent = x.uintval / 0x800000 % 0x100 := by
  simp only [getUnbiasedExponent, Nat.shiftRight_eq_div_pow]; rfl

theorem getMantissa_eq : x.getMantissa = x.uintval % 0x800000 := rfl

theorem isInf_eq : x.isInf = decide (x.uintval % 0x80000000 = 0x7f800000) := by
  simp only [isInf, getUnbiasedExponent_eq, getMantissa_eq]
  show (_ == 255 && _ == 0) = _
  by_cases h : x.uintval % 0x80000000 = 0x7f800000
  · rw [decide_eq_true h]; simp only [Bool.and_eq_true, beq_iff_eq]; omega
  · rw [decide_eq_false h]; simp only [Bool.and_eq_false_iff, beq_eq_false_iff_ne]; omega

theorem isNan_eq : x.isNan = decide (0x7f800000 < x.uintval % 0x80000000) := by
  simp only [isNan, getUnbiasedExponent_eq, getMantissa_eq]
  show (_ == 255 && _ != 0) = _
  by_cases h : 0x7f800000 < x.uintval % 0x80000000
  · rw [decide_eq_true h]; simp only [Bool.and_eq_true, beq_iff_eq, bne_iff_ne]; omega
  · rw [decide_eq_false h]; simp only [Bool.and_eq_false_iff, beq_eq_false_iff_ne, bne_eq_false_iff_eq]
    omega

theorem isInfOrNan_eq : x.isInfOrNan = decide (0x7f800000 ≤ x.uintval % 0x80000000) := by
  simp only [isInfOrNan, getUnbiasedExponent_eq]
  show (_ == 255) = _
  by_cases h : 0x7f800000 ≤ x.uintval % 0x80000000
  · rw [decide_eq_true h]; simp only [beq_iff_eq]; omega
  · rw [decide_eq_false h]; simp only [beq_eq_false_iff_ne]; omega

variable {x}

theorem isInfOrNan_eq_false (h : x.uintval % 0x80000000 < 0x7f800000) : x.isInfOrNan = false := by
  rw [isInfOrNan_eq, decide_eq_false_iff_not]; omega

/-- The value of a normal pattern of sign `+`. -/
theorem toRat_ofNat {n : Nat} (h1 : 0x800000 ≤ n) (h2 : n < 0x7f800000) :
    (ofNat float n).toRat =
      ((n % 0x800000 + 0x800000 : Nat) : ℚ) * 2 ^ ((n / 0x800000 : Nat) - 150 : Int) := by
  have hu : (ofNat float n).uintval = n := Nat.mod_eq_of_lt (show n < 2 ^ 32 by omega)
  have hs : (ofNat float n).getSign = false := by
    rw [getSign_eq, hu, decide_eq_false_iff_not]; omega
  have hE : (ofNat float n).getUnbiasedExponent = n / 0x800000 := by
    rw [getUnbiasedExponent_eq, hu]; omega
  rw [toRat_eq _ (isInfOrNan_eq_false (by rw [hu]; omega)), hs, hE, getMantissa_eq, hu,
    if_neg (show n / 0x800000 ≠ 0 by omega)]
  simp only [Bool.false_eq_true, if_false, one_mul, float_mantissaWidth, float_minQuantum]
  congr 2
  omega

/-- The value of a normal pattern of sign `-`. -/
theorem toRat_ofNat_neg {n : Nat} (h1 : 0x80800000 ≤ n) (h2 : n < 0xff800000) :
    (ofNat float n).toRat =
      -(((n % 0x800000 + 0x800000 : Nat) : ℚ) * 2 ^ ((n / 0x800000 % 0x100 : Nat) - 150 : Int)) := by
  have hu : (ofNat float n).uintval = n := Nat.mod_eq_of_lt (show n < 2 ^ 32 by omega)
  have hs : (ofNat float n).getSign = true := by
    rw [getSign_eq, hu, decide_eq_true_iff]; omega
  rw [toRat_eq _ (isInfOrNan_eq_false (by rw [hu]; omega)), hs, getUnbiasedExponent_eq,
    getMantissa_eq, hu, if_neg (show n / 0x800000 % 0x100 ≠ 0 by omega)]
  simp only [if_true, neg_one_mul, float_mantissaWidth, float_minQuantum]
  congr 3
  omega

/-- A finite `float` whose magnitude field is at most the normal pattern `c` of sign `+` has at
    most the magnitude of `c`. -/
theorem abs_toRat_le {c : Nat} (hx : x.isInfOrNan = false) (hc : c < 0x7f800000)
    (h : x.uintval % 0x80000000 ≤ c) : |x.toRat| ≤ (ofNat float c).toRat := by
  have hu : (ofNat float c).uintval = c := Nat.mod_eq_of_lt (show c < 2 ^ 32 by omega)
  rw [abs_toRat hx]
  refine toRat_le_toRat (getSign_abs x) (by rw [getSign_eq, hu]; simp; omega)
    (isInfOrNan_eq_false (by rw [hu]; omega)) ?_
  rw [abs_uintval, hu]
  exact h

/-- A finite `float` with exponent field `E ≠ 0` has magnitude at least `2^(E - 127)`. -/
theorem two_zpow_le_abs_toRat (hx : x.isInfOrNan = false) (hE : x.getUnbiasedExponent ≠ 0) :
    (2 : ℚ) ^ ((x.getUnbiasedExponent : Int) - 127) ≤ |x.toRat| := by
  have := two_zpow_le_toRat (x := x.abs) (by rwa [isInfOrNan_abs]) (getSign_abs x)
    (by rwa [getUnbiasedExponent_abs])
  rw [abs_toRat hx]
  rw [getUnbiasedExponent_abs, float_minQuantum, float_mantissaWidth] at this
  convert this using 2
  ring

end FloatBits

end LlvmLibc.Math
