import LlvmLibc.Math.Exp2fApprox
import LlvmLibc.Math.TableInputs

/-! # The accuracy of `exp2f` on its table path

On every input `exp2f` sends to `exp2fTable`, the `double` it finally converts to `float` is within
`2^-27` of `2^x`, relatively, and within `2^-37` once `|x| ≥ 2^-7`; the result is that `double`
converted to `float` (`exp2f_table_accurate`).

The error comes from five places. The split `x = x_hi * 2^-6 + lo` is exact for `|x| ≥ 2^-7`
(`exp2fTable_exactSplit`) and below that it misses by at most `2^-29`: there `x_hi` is `0` except
next to `±2^-7` (`roundingReduction_fst_eq_zero`), and the residual is rounded once
(`exp2fTable_nearSplit`). `2^hi * EXP_M[mid]` is within `2^-50` of `2^(x_hi/64)`
(`expHiMid_near`), the polynomial in `double` within `2^-38` of `2^lo` (`expLo_near`), and the last
product adds one rounding. -/

namespace LlvmLibc.Math
open FPUtil FPUtil.FPBits FPUtil.FloatProperties

@[simp] theorem float_epsilon : float.epsilon = 1 / 2 ^ 23 := rfl

@[simp] theorem double_epsilon : double.epsilon = 1 / 2 ^ 52 := rfl

/-! ### The split -/

section Split
variable (mode : RoundingMode) {x : FloatBits} {k : Nat}

/-- `1 - 2^-24`, the float below `1`. -/
theorem finiteValue_one_sub : float.FiniteValue (1 - 1 / 2 ^ 24) := by
  convert finiteValue_int_mul (F := float) (m := 2 ^ 24 - 1) (q := -24) (by simp) (by simp)
    (by simp) using 1
  norm_num

/-- While `|x * 2^k| ≤ 1/2 - 2^-24`, `x * 2^k ± 1/2` rounds into `[1/2, 1 - 2^-24]` (or its
    negative) in every mode, and `x_hi` is `0`. -/
theorem roundingReduction_fst_eq_zero (hk : k ≤ 100) (hx : x.isInfOrNan = false)
    (h : |x.toRat * 2 ^ (k : Int)| ≤ 1 / 2 - 1 / 2 ^ 24) : (roundingReduction k mode x).1 = 0 := by
  have hzf : float.FiniteValue (x.toRat * 2 ^ (k : Int)) :=
    ⟨(finiteValue_toRat x hx).1.mul_two_zpow (by omega),
      h.trans_lt (by rw [float_maxExponent]; norm_num)⟩
  have hv1 := mul_lit_within mode hx (k := k) (by omega) (by omega) hzf
  have hk2 := two_zpow_pos (k : Int)
  have hhalf := finiteValue_add_half (n := 0) (by norm_num)
  rw [Nat.cast_zero, zero_add] at hhalf
  have hf0 : ⌊(1 / 2 : ℚ)⌋ = 0 := by norm_num [Int.floor_eq_iff]
  have hf1 : ⌊(1 - 1 / 2 ^ 24 : ℚ)⌋ = 0 := by norm_num [Int.floor_eq_iff]
  obtain ⟨hlo, hhi⟩ := abs_le.mp h
  simp only [roundingReduction]
  cases hs : x.getSign
  · have hz0 : 0 ≤ x.toRat * 2 ^ (k : Int) := mul_nonneg (toRat_nonneg hx hs) hk2.le
    have hh := half_within false
    simp only [Bool.false_eq_true, if_false] at hh ⊢
    have hw := add_within mode hv1.isInfOrNan_eq hh.isInfOrNan_eq hhalf finiteValue_one_sub
      (by rw [hv1.toRat_eq, hh.toRat_eq]; linarith) (by rw [hv1.toRat_eq, hh.toRat_eq]; linarith)
    exact toIntTrunc_of_within hw (by norm_num) hf0 hf1
  · have hz1 : x.toRat * 2 ^ (k : Int) ≤ 0 := mul_nonpos_iff.2 (.inr ⟨toRat_nonpos hx hs, hk2.le⟩)
    have hh := half_within true
    simp only [if_true] at hh ⊢
    have hw := add_within mode hv1.isInfOrNan_eq hh.isInfOrNan_eq finiteValue_one_sub.neg hhalf.neg
      (by rw [hv1.toRat_eq, hh.toRat_eq]; linarith) (by rw [hv1.toRat_eq, hh.toRat_eq]; linarith)
    simpa using toIntTrunc_of_within_neg hw (by norm_num) hf0 hf1

end Split

/-- `x = x_hi * 2^-6 + lo` up to `σ`, with `lo` finite and `|lo| ≤ 1/127`: the split that the
    polynomial of `exp2f` is accurate on. -/
def NearSplit (x : FloatBits) (x_hi : Int) (lo : FloatBits) (σ : ℚ) : Prop :=
  lo.isInfOrNan = false ∧ |lo.toRat| ≤ 1 / 127 ∧ |x.toRat - (x_hi * 2 ^ (-6 : Int) + lo.toRat)| ≤ σ

theorem ExactSplit.nearSplit {x lo : FloatBits} {x_hi : Int} (h : ExactSplit 6 x x_hi lo) :
    NearSplit x x_hi lo 0 := by
  obtain ⟨hf, heq, habs⟩ := h
  refine ⟨hf, habs.trans (by norm_num), by rw [heq]; simp⟩

/-- On a table input, the split of `exp2f` is within `2^-29` of exact. -/
theorem exp2fTable_nearSplit {mode : RoundingMode} {x : FloatBits} (h : Exp2fTableInput mode x) :
    NearSplit x (roundingReduction 6 mode x).1 (roundingReduction 6 mode x).2 (1 / 2 ^ 29) := by
  obtain ⟨hx, -, -⟩ := h.bounds
  rcases le_or_lt (2 ^ (-7 : Int)) |x.toRat| with hx7 | hx7
  · obtain ⟨hf, hl, he⟩ := (exp2fTable_exactSplit mode x h hx7).nearSplit
    exact ⟨hf, hl, he.trans (by norm_num)⟩
  -- below `2^-7`, `x_hi` is `0`, or `±1` with the sign of `x` once `|x| > 2^-7 - 2^-30`
  have h64 : (2 : ℚ) ^ ((6 : Nat) : Int) = 64 := by norm_num
  have hx7' : |x.toRat| < 1 / 2 ^ 7 := by
    rw [show (2 : ℚ) ^ (-7 : Int) = 1 / 2 ^ 7 by norm_num] at hx7; exact hx7
  obtain ⟨hxa, hxb⟩ := abs_lt.mp hx7'
  set x_hi := (roundingReduction 6 mode x).1
  have hpos : 0 ≤ x.toRat → 0 ≤ x_hi ∧ x_hi ≤ 1 := fun h0 => by
    simpa using roundingReduction_fst_mem mode (k := 6) (A := 0) (B := 1) (by norm_num) hx
      (by norm_num) (by norm_num) (by rw [h64]; push_cast; linarith) (by rw [h64]; push_cast; linarith)
  have hneg : x.toRat ≤ 0 → -1 ≤ x_hi ∧ x_hi ≤ 0 := fun h0 => by
    simpa using roundingReduction_fst_mem mode (k := 6) (A := 1) (B := 0) (by norm_num) hx
      (by norm_num) (by norm_num) (by rw [h64]; push_cast; linarith) (by rw [h64]; push_cast; linarith)
  have hnz : x_hi ≠ 0 → 1 / 2 - 1 / 2 ^ 24 < |x.toRat * 64| := fun h0 => by
    by_contra hle
    exact h0 (roundingReduction_fst_eq_zero mode (k := 6) (by norm_num) hx (by rw [h64]; linarith))
  have hv : |x.toRat - x_hi * 2 ^ (-6 : Int)| ≤ 1 / 2 ^ 7 + 1 / 2 ^ 30 := by
    rw [abs_le]
    by_cases h0 : x_hi = 0
    · rw [h0]; constructor <;> push_cast <;> linarith
    have hbig := hnz h0
    rcases le_total 0 x.toRat with hs | hs
    · rw [show x_hi = 1 by have := hpos hs; omega]
      rw [abs_of_nonneg (by linarith)] at hbig
      constructor <;> norm_num <;> linarith
    · rw [show x_hi = -1 by have := hneg hs; omega]
      rw [abs_of_nonpos (by linarith)] at hbig
      constructor <;> norm_num <;> linarith
  -- the residual is `x - x_hi * 2^-6` rounded once
  have hi1 : x_hi.natAbs ≤ 1 := by
    rcases le_total 0 x.toRat with hs | hs
    · have := hpos hs; omega
    · have := hneg hs; omega
  have hfi : float.FiniteValue (x_hi : ℚ) := by
    simpa using finiteValue_int_mul (F := float) (m := x_hi) (q := 0) (by simp) (by simp; omega)
      (by simp)
  have hfi2 : float.FiniteValue (x_hi * 2 ^ (-((6 : Nat) : Int))) :=
    finiteValue_int_mul (by simp) (by simp; omega) (by simp)
  have hw1 := ofInt_within mode x_hi hfi hfi le_rfl le_rfl
  have hl := lit_one_within (F := float) (k := -((6 : Nat) : Int)) (by simp) (by simp)
  have hw2 := mul_within mode hw1.isInfOrNan_eq hl.isInfOrNan_eq hfi2 hfi2
    (by rw [hw1.toRat_eq, hl.toRat_eq]) (by rw [hw1.toRat_eq, hl.toRat_eq])
  have h6 : (2 : ℚ) ^ (-((6 : Nat) : Int)) = 2 ^ (-6 : Int) := by norm_num
  have hn := sub_near mode hx hw2.isInfOrNan_eq (by
    rw [hw2.toRat_eq, h6, float_maxExponent]; exact hv.trans_lt (by norm_num))
  rw [hw2.toRat_eq, h6, float_epsilon, float_minQuantum] at hn
  have herr : |(sub mode x (mul mode (ofInt float mode x_hi) (float.lit 1 (-((6 : Nat) : Int))))).toRat -
      (x.toRat - x_hi * 2 ^ (-6 : Int))| ≤ 1 / 2 ^ 30 + 1 / 2 ^ 52 := by
    refine hn.abs_sub_le.trans ?_
    have := mul_le_mul_of_nonneg_left hv (by norm_num : (0 : ℚ) ≤ 1 / 2 ^ 23)
    norm_num at this ⊢
    linarith
  have hlo : (roundingReduction 6 mode x).2 =
      sub mode x (mul mode (ofInt float mode x_hi) (float.lit 1 (-((6 : Nat) : Int)))) := rfl
  rw [hlo]
  refine ⟨hn.isInfOrNan_eq, ?_, ?_⟩
  · have := abs_sub_abs_le_abs_sub
      (sub mode x (mul mode (ofInt float mode x_hi) (float.lit 1 (-((6 : Nat) : Int))))).toRat
      (x.toRat - x_hi * 2 ^ (-6 : Int))
    norm_num at hv herr this ⊢
    linarith
  · rw [show x.toRat - (x_hi * 2 ^ (-6 : Int) +
        (sub mode x (mul mode (ofInt float mode x_hi) (float.lit 1 (-((6 : Nat) : Int))))).toRat) =
        -((sub mode x (mul mode (ofInt float mode x_hi) (float.lit 1 (-((6 : Nat) : Int))))).toRat -
          (x.toRat - x_hi * 2 ^ (-6 : Int))) by ring, abs_neg]
    exact herr.trans (by norm_num)

/-! ### The parts of the table path -/

/-- `2^hi` assembled in the exponent field of a `double` (lines 145-147). -/
def expHi (x_hi : Int) : DoubleBits :=
  ofNat double ((((x_hi >>> (6 : Nat)) + (double.exponentBias : Int)) % (2 ^ 64 : Nat)).toNat <<<
    double.mantissaWidth)

/-- The coefficients `exp2f` passes to `polyeval` (lines 155-158). -/
def exp2fCoeffLits : List DoubleBits :=
  [double.lit 1 0, double.lit 0x162e42fefa2417 (-53), double.lit 0x1ebfbdff82f809 (-55),
    double.lit 0x1c6b0b92131c47 (-57), double.lit 0x13b2ab6fb568a3 (-59)]

/-- The `double` product `exp_hi_mid * exp_lo` that `exp2f` converts to `float` (line 162). -/
def exp2fProduct (mode : RoundingMode) (x : FloatBits) : DoubleBits :=
  mul mode
    (mul mode (expHi (roundingReduction 6 mode x).1)
      (expM.getD ((roundingReduction 6 mode x).1 % 2 ^ 6).toNat (zero double false)))
    (polyeval mode (convert double mode (roundingReduction 6 mode x).2) exp2fCoeffLits)

theorem exp2fTable_eq (mode : RoundingMode) (x : FloatBits) :
    exp2fTable mode x = convert float mode (exp2fProduct mode x) := rfl

theorem lit_double_within {m : Nat} {e : Int} (hm : m < 2 ^ 53) (h1 : -1074 ≤ e) (h2 : e ≤ 971) :
    (double.lit m e).Within (m * 2 ^ e) (m * 2 ^ e) := by
  have := finiteValue_int_mul (F := double) (m := m) (q := e) (by simpa using h1) (by simpa using hm)
    (by simp; omega)
  exact lit_within (by exact_mod_cast this)

/-- The literal coefficients are finite and have the values `exp2fCoeffs`. -/
theorem exp2fCoeffLits_toRat :
    (∀ c ∈ exp2fCoeffLits, c.isInfOrNan = false) ∧ exp2fCoeffLits.map toRat = exp2fCoeffs := by
  have h0 := lit_double_within (m := 1) (e := 0) (by norm_num) (by norm_num) (by norm_num)
  have h1 := lit_double_within (m := 0x162e42fefa2417) (e := -53) (by norm_num) (by norm_num) (by norm_num)
  have h2 := lit_double_within (m := 0x1ebfbdff82f809) (e := -55) (by norm_num) (by norm_num) (by norm_num)
  have h3 := lit_double_within (m := 0x1c6b0b92131c47) (e := -57) (by norm_num) (by norm_num) (by norm_num)
  have h4 := lit_double_within (m := 0x13b2ab6fb568a3) (e := -59) (by norm_num) (by norm_num) (by norm_num)
  refine ⟨?_, ?_⟩
  · simp only [exp2fCoeffLits, List.mem_cons, List.mem_singleton, List.not_mem_nil, or_false]
    rintro c (rfl | rfl | rfl | rfl | rfl)
    exacts [h0.isInfOrNan_eq, h1.isInfOrNan_eq, h2.isInfOrNan_eq, h3.isInfOrNan_eq, h4.isInfOrNan_eq]
  · simp only [exp2fCoeffLits, exp2fCoeffs, List.map_cons, List.map_nil, h0.toRat_eq, h1.toRat_eq,
      h2.toRat_eq, h3.toRat_eq, h4.toRat_eq]
    norm_num

/-- The polynomial, evaluated in `double` on a `float` `lo` with `|lo| ≤ 1/127`, is finite and
    within `2^-38` of `2^lo`, relatively. -/
theorem expLo_near (mode : RoundingMode) {lo : FloatBits} (hlo : lo.isInfOrNan = false)
    (ht : |lo.toRat| ≤ 1 / 127) :
    (polyeval mode (convert double mode lo) exp2fCoeffLits).isInfOrNan = false ∧
      |((polyeval mode (convert double mode lo) exp2fCoeffLits).toRat : ℝ) - 2 ^ (lo.toRat : ℝ)| ≤
        2 ^ (lo.toRat : ℝ) / 2 ^ 38 := by
  have hv := FiniteValue.toDouble (finiteValue_toRat lo hlo)
  have hxd := convert_within mode hlo hv hv le_rfl le_rfl
  obtain ⟨hcs, hmap⟩ := exp2fCoeffLits_toRat
  have habs : (exp2fCoeffLits.map fun c => |c.toRat|) = exp2fCoeffs.map (fun c : ℚ => |c|) := by
    rw [← hmap, List.map_map]; rfl
  have hp : (polyeval mode (convert double mode lo) exp2fCoeffLits).Near
      (horner (convert double mode lo).toRat (exp2fCoeffLits.map toRat))
      (((1 + double.epsilon) ^ (2 * 4) - 1) * horner (1 / 127) (exp2fCoeffLits.map fun c => |c.toRat|) +
        (4 ^ 4 - 1) * 2 ^ double.minQuantum) :=
    polyeval_near mode hxd.isInfOrNan_eq (X := 1 / 127) (by rw [hxd.toRat_eq]; exact ht)
      (by norm_num) (double.lit 1 0) _ hcs (by
        show (1 + double.epsilon) ^ (2 * 4 + 2) * (exp2fCoeffLits.map fun c => |c.toRat|).sum +
          4 ^ (4 + 1) * 2 ^ double.minQuantum < 2 ^ double.maxExponent
        rw [habs]
        norm_num [exp2fCoeffs, abs_div])
  rw [habs, hmap, hxd.toRat_eq] at hp
  have herr : ((1 + double.epsilon) ^ (2 * 4) - 1) * horner (1 / 127) (exp2fCoeffs.map fun c : ℚ => |c|) +
      (4 ^ 4 - 1) * 2 ^ double.minQuantum ≤ 1 / 2 ^ 48 := by
    norm_num [exp2fCoeffs, horner, abs_div]
  refine ⟨hp.isInfOrNan_eq, ?_⟩
  have h1 := (Rat.cast_le (K := ℝ)).mpr (hp.abs_sub_le.trans herr)
  push_cast at h1
  have h2 := abs_horner_exp2fCoeffs_sub_le lo.toRat ht
  have h3 := two_rpow_ge (t := (lo.toRat : ℝ)) (by
    have := (Rat.cast_le (K := ℝ)).mpr (neg_abs_le lo.toRat |>.trans' (neg_le_neg ht))
    push_cast at this; linarith)
  calc _ ≤ |((polyeval mode (convert double mode lo) exp2fCoeffLits).toRat : ℝ) -
          ((horner lo.toRat exp2fCoeffs : ℚ) : ℝ)| +
        |((horner lo.toRat exp2fCoeffs : ℚ) : ℝ) - 2 ^ (lo.toRat : ℝ)| := abs_sub_le _ _ _
    _ ≤ 1 / 2 ^ 48 + 1 / 2 ^ 39 := add_le_add h1 h2
    _ ≤ _ := by linarith

/-- `2^hi * EXP_M[mid]` in `double` is finite and within `2^-50` of `2^(x_hi/64)`, relatively. -/
theorem expHiMid_near (mode : RoundingMode) {x_hi : Int} (hidx : Exp2TableIndices x_hi)
    (hhi : x_hi >>> (6 : Nat) ≤ 128) :
    (mul mode (expHi x_hi) (expM.getD (x_hi % 2 ^ 6).toNat (zero double false))).isInfOrNan = false ∧
      |((mul mode (expHi x_hi) (expM.getD (x_hi % 2 ^ 6).toNat (zero double false))).toRat : ℝ) -
        2 ^ ((x_hi : ℝ) / 64)| ≤ 2 ^ ((x_hi : ℝ) / 64) / 2 ^ 50 := by
  obtain ⟨he1, -, hfin, -, -, hval, hmid, hsplit⟩ := hidx
  change (expHi x_hi).isInfOrNan = false at hfin
  change (expHi x_hi).toRat = 2 ^ (x_hi >>> (6 : Nat)) at hval
  set hi := x_hi >>> (6 : Nat)
  set mid := (x_hi % 2 ^ 6).toNat
  obtain ⟨hMf, hM⟩ := expM_near (i := mid) hmid
  set M := (expM.getD mid (zero double false)).toRat
  set V := (2 : ℝ) ^ ((mid : ℝ) / 64)
  have hV1 : 1 ≤ V := Real.one_le_rpow one_le_two (by positivity)
  have hV2 : V ≤ 2 := by
    have := Real.rpow_le_rpow_of_exponent_le one_le_two
      (show (mid : ℝ) / 64 ≤ 1 by rw [div_le_one (by norm_num)]; exact_mod_cast hmid.le)
    rwa [Real.rpow_one] at this
  obtain ⟨hM1, hM2⟩ := abs_le.mp hM
  -- `2^(x_hi/64) = 2^hi * 2^(mid/64)`
  have hA : ((2 ^ hi : ℚ) : ℝ) = (2 : ℝ) ^ (hi : ℝ) := by push_cast; rw [Real.rpow_intCast]
  have hx64 : (x_hi : ℝ) / 64 = hi + mid / 64 := by
    have h0 : 0 ≤ x_hi % 2 ^ 6 := Int.emod_nonneg _ (by norm_num)
    have hm : ((mid : Int) : ℝ) = ((x_hi % 2 ^ 6 : Int) : ℝ) := by rw [Int.toNat_of_nonneg h0]
    have hs := congrArg (fun z : Int => (z : ℝ)) hsplit
    push_cast at hm hs
    rw [hm]; linarith
  rw [hx64, Real.rpow_add two_pos, ← hA]
  set A := (2 : ℚ) ^ hi
  have hA0 : 0 < A := two_zpow_pos hi
  have hAlo : (2 : ℚ) ^ (-1022 : Int) ≤ A := two_zpow_le (by simp only [double_exponentBias] at he1; omega)
  have hAhi : A ≤ 2 ^ (128 : Int) := two_zpow_le hhi
  have hMabs : |M| ≤ 4 := by
    have : |(M : ℝ)| ≤ 4 := abs_le.mpr ⟨by linarith, by linarith⟩
    exact_mod_cast this
  have hn := mul_near mode hfin hMf (by
    rw [hval, abs_mul, abs_of_pos hA0, double_maxExponent]
    calc A * |M| ≤ 2 ^ (128 : Int) * 4 := mul_le_mul hAhi hMabs (abs_nonneg _) (by positivity)
      _ < 2 ^ (1023 : Int) := by norm_num)
  refine ⟨hn.isInfOrNan_eq, ?_⟩
  have h1 := (Rat.cast_le (K := ℝ)).mpr hn.abs_sub_le
  rw [hval, double_epsilon, double_minQuantum, show (-1074 : Int) = -1022 + -52 by norm_num,
    two_zpow_add] at h1
  push_cast at h1
  have hA0' : (0 : ℝ) < A := by exact_mod_cast hA0
  have hAV : (2 : ℝ) ^ (-1022 : Int) ≤ A * V := by
    have : ((2 ^ (-1022 : Int) : ℚ) : ℝ) ≤ A := by exact_mod_cast hAlo
    push_cast at this
    exact this.trans (le_mul_of_one_le_right hA0'.le hV1)
  have hAM : |(A : ℝ) * M| ≤ A * V * (1 + 1 / 2 ^ 53) := by
    rw [abs_of_nonneg (mul_nonneg hA0'.le (by linarith))]
    have := mul_le_mul_of_nonneg_left (show (M : ℝ) ≤ V * (1 + 1 / 2 ^ 53) by linarith) hA0'.le
    linarith
  have hsplit : |((mul mode (expHi x_hi) (expM.getD mid (zero double false))).toRat : ℝ) - A * V| ≤
      |((mul mode (expHi x_hi) (expM.getD mid (zero double false))).toRat : ℝ) - A * M| +
        A * (V / 2 ^ 53) := by
    have := abs_add (((mul mode (expHi x_hi) (expM.getD mid (zero double false))).toRat : ℝ) - A * M)
      (A * (M - V))
    rw [abs_mul, abs_of_pos hA0'] at this
    rw [show ((mul mode (expHi x_hi) (expM.getD mid (zero double false))).toRat : ℝ) - A * V =
      ((mul mode (expHi x_hi) (expM.getD mid (zero double false))).toRat : ℝ) - A * M +
        A * (M - V) by ring]
    linarith [mul_le_mul_of_nonneg_left hM hA0'.le]
  have h52 : (2 : ℝ) ^ (-52 : Int) = 1 / 2 ^ 52 := by norm_num
  rw [h52] at h1
  change |_ - (A : ℝ) * M| ≤ 1 / 2 ^ 52 * |(A : ℝ) * M| + 2 ^ (-1022 : Int) * (1 / 2 ^ 52) at h1
  show |_ - (A : ℝ) * V| ≤ A * V / 2 ^ 50
  have e1 := le_trans hsplit (add_le_add_right h1 _)
  have e2 : 1 / 2 ^ 52 * |(A : ℝ) * M| ≤ 1 / 2 ^ 52 * (A * V * (1 + 1 / 2 ^ 53)) :=
    mul_le_mul_of_nonneg_left hAM (by norm_num)
  have e3 : (2 : ℝ) ^ (-1022 : Int) * (1 / 2 ^ 52) ≤ A * V * (1 / 2 ^ 52) :=
    mul_le_mul_of_nonneg_right hAV (by norm_num)
  linarith only [e1, e2, e3, hA0', hV1, mul_pos hA0' (zero_lt_one.trans_le hV1)]

/-! ### The product -/

/-- Relative errors of two factors add up in the product. -/
theorem abs_mul_sub_mul_le {a b A B ρ τ : ℝ} (hA : 0 ≤ A) (hB : 0 ≤ B) (hρ : 0 ≤ ρ)
    (ha : |a - A| ≤ ρ * A) (hb : |b - B| ≤ τ * B) : |a * b - A * B| ≤ (ρ + τ + ρ * τ) * (A * B) := by
  have hb' : |b| ≤ (1 + τ) * B := by linarith [abs_sub_abs_le_abs_sub b B, abs_of_nonneg hB]
  calc |a * b - A * B| = |(a - A) * b + A * (b - B)| := by ring_nf
    _ ≤ |a - A| * |b| + A * |b - B| := by
        rw [← abs_of_nonneg hA, ← abs_mul, ← abs_mul, abs_of_nonneg hA]; exact abs_add _ _
    _ ≤ ρ * A * ((1 + τ) * B) + A * (τ * B) :=
        add_le_add (mul_le_mul ha hb' (abs_nonneg _) (by positivity)) (mul_le_mul_of_nonneg_left hb hA)
    _ = (ρ + τ + ρ * τ) * (A * B) := by ring

/-- On a table input, `x_hi` lies in `[-150 * 2^6, 128 * 2^6]`. -/
theorem exp2fTable_fst_mem {mode : RoundingMode} {x : FloatBits} (h : Exp2fTableInput mode x) :
    -9600 ≤ (roundingReduction 6 mode x).1 ∧ (roundingReduction 6 mode x).1 ≤ 8192 := by
  obtain ⟨hx, hlo, hhi⟩ := h.bounds
  have h64 : (2 : ℚ) ^ ((6 : Nat) : Int) = 64 := by norm_num
  exact roundingReduction_fst_mem mode (k := 6) (A := 9600) (B := 8192) (by norm_num) hx
    (by norm_num) (by norm_num) (by rw [h64]; push_cast; linarith) (by rw [h64]; push_cast; linarith)

/-- The `double` product `exp2f` converts to `float` is finite and within `2^-38 + 2^-48` of
    `2^(x_hi/64) * 2^lo`, relatively. -/
theorem exp2fProduct_near {mode : RoundingMode} {x : FloatBits} {σ : ℚ} (h : Exp2fTableInput mode x)
    (hs : NearSplit x (roundingReduction 6 mode x).1 (roundingReduction 6 mode x).2 σ) :
    (exp2fProduct mode x).isInfOrNan = false ∧
      |((exp2fProduct mode x).toRat : ℝ) - 2 ^ (((roundingReduction 6 mode x).1 : ℝ) / 64) *
          2 ^ ((roundingReduction 6 mode x).2.toRat : ℝ)| ≤
        (1 / 2 ^ 38 + 1 / 2 ^ 48) * (2 ^ (((roundingReduction 6 mode x).1 : ℝ) / 64) *
          2 ^ ((roundingReduction 6 mode x).2.toRat : ℝ)) := by
  obtain ⟨hlof, hlo127, -⟩ := hs
  obtain ⟨hx1, hx2⟩ := exp2fTable_fst_mem h
  have hhi : (roundingReduction 6 mode x).1 >>> (6 : Nat) ≤ 128 := by
    rw [Int.shiftRight_eq_div_pow]; omega
  obtain ⟨hmf, hm⟩ := expHiMid_near mode (exp2fTable_index mode x h) hhi
  obtain ⟨hef, he⟩ := expLo_near mode hlof hlo127
  unfold exp2fProduct
  set hmv := mul mode (expHi (roundingReduction 6 mode x).1)
    (expM.getD ((roundingReduction 6 mode x).1 % 2 ^ 6).toNat (zero double false))
  set el := polyeval mode (convert double mode (roundingReduction 6 mode x).2) exp2fCoeffLits
  set a := (2 : ℝ) ^ (((roundingReduction 6 mode x).1 : ℝ) / 64)
  set q := (2 : ℝ) ^ ((roundingReduction 6 mode x).2.toRat : ℝ)
  have ha0 : 0 < a := by positivity
  have hq0 : 0 < q := by positivity
  have hahi : a ≤ 2 ^ 128 := by
    have := Real.rpow_le_rpow_of_exponent_le one_le_two
      (show ((roundingReduction 6 mode x).1 : ℝ) / 64 ≤ (128 : ℕ) by
        rw [div_le_iff₀ (by norm_num)]; push_cast; exact_mod_cast (by omega : _ ≤ (8192 : Int)))
    rwa [Real.rpow_natCast] at this
  have halo : (2 : ℝ) ^ (-150 : Int) ≤ a := by
    have := Real.rpow_le_rpow_of_exponent_le one_le_two
      (show (((-150 : Int) : ℝ)) ≤ ((roundingReduction 6 mode x).1 : ℝ) / 64 by
        rw [le_div_iff₀ (by norm_num)]; push_cast; exact_mod_cast (by omega : (-9600 : Int) ≤ _))
    rwa [Real.rpow_intCast] at this
  have ht : |((roundingReduction 6 mode x).2.toRat : ℝ)| ≤ 1 / 127 := by
    have := (Rat.cast_le (K := ℝ)).mpr hlo127; push_cast at this; exact this
  have hqhi : q ≤ 2 := by
    have h1 : ((roundingReduction 6 mode x).2.toRat : ℝ) ≤ 1 := (abs_le.mp ht).2.trans (by norm_num)
    simpa using Real.rpow_le_rpow_of_exponent_le one_le_two h1
  have hqlo := two_rpow_ge (t := ((roundingReduction 6 mode x).2.toRat : ℝ))
    (by linarith [neg_abs_le ((roundingReduction 6 mode x).2.toRat : ℝ)])
  -- the two factors, and their product
  have hprod := abs_mul_sub_mul_le (a := (hmv.toRat : ℝ)) (b := (el.toRat : ℝ)) ha0.le hq0.le
    (ρ := 1 / 2 ^ 50) (τ := 1 / 2 ^ 38) (by norm_num) (by rw [one_div_mul_eq_div]; exact hm)
    (by rw [one_div_mul_eq_div]; exact he)
  have hpabs : |(hmv.toRat : ℝ) * el.toRat| ≤ 2 * (a * q) := by
    have := abs_sub_abs_le_abs_sub ((hmv.toRat : ℝ) * el.toRat) (a * q)
    rw [abs_of_pos (mul_pos ha0 hq0)] at this
    have : (1 / 2 ^ 50 + 1 / 2 ^ 38 + 1 / 2 ^ 50 * (1 / 2 ^ 38) : ℝ) * (a * q) ≤ a * q :=
      mul_le_of_le_one_left (mul_pos ha0 hq0).le (by norm_num)
    linarith
  have hr := mul_near mode hmf hef (by
    have : |(hmv.toRat : ℝ) * el.toRat| < 2 ^ 1023 := hpabs.trans_lt (by
      have := mul_le_mul hahi hqhi hq0.le (by positivity)
      linarith [show (2 : ℝ) * (2 ^ 128 * 2) < 2 ^ 1023 by norm_num])
    rw [double_maxExponent]
    exact_mod_cast this)
  refine ⟨hr.isInfOrNan_eq, ?_⟩
  have h1 := (Rat.cast_le (K := ℝ)).mpr hr.abs_sub_le
  rw [double_epsilon, double_minQuantum] at h1
  push_cast at h1
  have hη : (2 : ℝ) ^ (-1074 : Int) ≤ 1 / 2 ^ 52 * (a * q) := by
    have h150 : (2 : ℝ) ^ (-1074 : Int) ≤ 1 / 2 ^ 52 * (2 ^ (-150 : Int) * (99 / 100)) := by norm_num
    exact h150.trans (mul_le_mul_of_nonneg_left (mul_le_mul halo hqlo (by norm_num) ha0.le)
      (by norm_num))
  calc _ ≤ |((mul mode hmv el).toRat : ℝ) - hmv.toRat * el.toRat| +
        |(hmv.toRat : ℝ) * el.toRat - a * q| := abs_sub_le _ _ _
    _ ≤ (1 / 2 ^ 52 * (2 * (a * q)) + 2 ^ (-1074 : Int)) +
        (1 / 2 ^ 50 + 1 / 2 ^ 38 + 1 / 2 ^ 50 * (1 / 2 ^ 38)) * (a * q) :=
        add_le_add (h1.trans (by gcongr)) hprod
    _ ≤ _ := by linarith [mul_pos ha0 hq0]

/-! ### The result -/

/-- Off by `e` in the exponent, `2^(y + e)` is within `2 |e| 2^y` of `2^y`. -/
theorem abs_two_rpow_add_sub_le (y : ℝ) {e : ℝ} (he : |e| ≤ 1) :
    |(2 : ℝ) ^ (y + e) - 2 ^ y| ≤ 2 * |e| * 2 ^ y := by
  have hy := Real.rpow_pos_of_pos two_pos y
  rw [Real.rpow_add two_pos, show (2 : ℝ) ^ y * 2 ^ e - 2 ^ y = 2 ^ y * (2 ^ e - 1) by ring, abs_mul,
    abs_of_pos hy, mul_comm (2 * |e|)]
  exact mul_le_mul_of_nonneg_left (abs_two_rpow_sub_one_le he) hy.le

/-- A split within `σ` of `x` adds `3σ` to the relative error of the product against `2^x`. -/
theorem exp2fProduct_near_two_rpow {mode : RoundingMode} {x : FloatBits} {σ : ℚ}
    (h : Exp2fTableInput mode x) (hσ : σ ≤ 1 / 2 ^ 29)
    (hs : NearSplit x (roundingReduction 6 mode x).1 (roundingReduction 6 mode x).2 σ) :
    (exp2fProduct mode x).isInfOrNan = false ∧
      |((exp2fProduct mode x).toRat : ℝ) - 2 ^ (x.toRat : ℝ)| ≤
        (1 / 2 ^ 38 + 1 / 2 ^ 48 + 3 * (σ : ℝ)) * 2 ^ (x.toRat : ℝ) := by
  obtain ⟨hf, hd⟩ := exp2fProduct_near h hs
  refine ⟨hf, ?_⟩
  -- the split's error, moved into the exponent
  set e : ℚ := ((roundingReduction 6 mode x).1 * 2 ^ (-6 : Int) + (roundingReduction 6 mode x).2.toRat) -
    x.toRat with he_def
  have he : |(e : ℝ)| ≤ σ := by
    have : |e| ≤ σ := by rw [he_def, abs_sub_comm]; exact hs.2.2
    exact_mod_cast this
  have hX : (2 : ℝ) ^ (((roundingReduction 6 mode x).1 : ℝ) / 64) *
      2 ^ ((roundingReduction 6 mode x).2.toRat : ℝ) = 2 ^ ((x.toRat : ℝ) + e) := by
    rw [← Real.rpow_add two_pos, he_def]
    congr 1
    push_cast
    ring
  rw [hX] at hd
  have hpos : (0 : ℝ) < 2 ^ (x.toRat : ℝ) := Real.rpow_pos_of_pos two_pos _
  have hσ0 : (0 : ℝ) ≤ σ := (abs_nonneg _).trans he
  have hσ1 : (σ : ℝ) ≤ 1 := by exact_mod_cast hσ.trans (by norm_num : (1 : ℚ) / 2 ^ 29 ≤ 1)
  have hy : |(2 : ℝ) ^ ((x.toRat : ℝ) + e) - 2 ^ (x.toRat : ℝ)| ≤ 2 * σ * 2 ^ (x.toRat : ℝ) :=
    (abs_two_rpow_add_sub_le _ (he.trans hσ1)).trans (by gcongr)
  have hX2 : (2 : ℝ) ^ ((x.toRat : ℝ) + e) ≤ (1 + 2 * σ) * 2 ^ (x.toRat : ℝ) := by
    linarith [(abs_le.mp hy).2]
  calc _ ≤ |((exp2fProduct mode x).toRat : ℝ) - 2 ^ ((x.toRat : ℝ) + e)| +
        |(2 : ℝ) ^ ((x.toRat : ℝ) + e) - 2 ^ (x.toRat : ℝ)| := abs_sub_le _ _ _
    _ ≤ (1 / 2 ^ 38 + 1 / 2 ^ 48) * ((1 + 2 * σ) * 2 ^ (x.toRat : ℝ)) + 2 * σ * 2 ^ (x.toRat : ℝ) :=
        add_le_add (hd.trans (mul_le_mul_of_nonneg_left hX2 (by norm_num))) hy
    _ ≤ _ := by linarith [mul_nonneg hσ0 hpos.le]

/-- On every input `exp2f` sends to its table path, in every rounding mode, it returns the `double`
    `exp2fProduct` converted to `float`, and that `double` is finite and within `2^-27` of `2^x`,
    relatively, and within `2^-37` once `|x| ≥ 2^-7`, where the split is exact. -/
theorem exp2f_table_accurate {env : FEnv} {x : FloatBits} (h : Exp2fTableInput env.round x) :
    (exp2f env x).1 = convert float env.round (exp2fProduct env.round x) ∧
    (exp2fProduct env.round x).isInfOrNan = false ∧
    |((exp2fProduct env.round x).toRat : ℝ) - 2 ^ (x.toRat : ℝ)| ≤ 2 ^ (x.toRat : ℝ) / 2 ^ 27 ∧
    ((2 : ℚ) ^ (-7 : Int) ≤ |x.toRat| →
      |((exp2fProduct env.round x).toRat : ℝ) - 2 ^ (x.toRat : ℝ)| ≤ 2 ^ (x.toRat : ℝ) / 2 ^ 37) := by
  have hpos : (0 : ℝ) < 2 ^ (x.toRat : ℝ) := Real.rpow_pos_of_pos two_pos _
  obtain ⟨hf, hd⟩ := exp2fProduct_near_two_rpow h le_rfl (exp2fTable_nearSplit h)
  refine ⟨by rw [exp2f_of_tableInput env x h, exp2fTable_eq], hf, hd.trans ?_, fun hx7 => ?_⟩
  · push_cast
    linarith
  · obtain ⟨-, hd0⟩ := exp2fProduct_near_two_rpow h (by norm_num)
      (exp2fTable_exactSplit env.round x h hx7).nearSplit
    refine hd0.trans ?_
    push_cast
    linarith

/-- At `1`, rounded to nearest. -/
theorem exp2f_table_accurate_at_one :
    Exp2fTableInput .toNearest (ofNat float 0x3f800000) ∧
      |((exp2fProduct .toNearest (ofNat float 0x3f800000)).toRat : ℝ) -
        2 ^ ((ofNat float 0x3f800000).toRat : ℝ)| ≤ 2 ^ ((ofNat float 0x3f800000).toRat : ℝ) / 2 ^ 27 := by
  have h : Exp2fTableInput (⟨.toNearest, 0, false⟩ : FEnv).round (ofNat float 0x3f800000) := by decide
  exact ⟨h, (exp2f_table_accurate h).2.2.1⟩

end LlvmLibc.Math
