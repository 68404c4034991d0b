import LlvmLibc.Math.Expf
import LlvmLibc.Math.Exp2f
import LlvmLibc.Math.Expm1f
import LlvmLibc.Math.RangeReduction

/-! The inputs that reach the table paths, and what the range reductions give there (§4.2).

Each function sends to its table path exactly the inputs that no special case, tiny-input branch
or exceptional value catches (`*TableInput`, with `expf_of_tableInput` and its siblings reading the
function down to its table path). These are finite, and their value lies in `[-104, 89]` (`expf`),
`[-150, 128]` (`exp2f`) or `[-18, 89]` (`expm1f`); the `expm1f` ones have magnitude at least
`2^-4`. From there the table indices of all four functions are in range (`expfTable_index`,
`exp2fTable_index`, `expm1fTable_index`), and the split of both `expm1f` is exact with
`lo ∈ [-2^-8, 2^-8]` (`expm1fTable_reduction`). -/

namespace LlvmLibc.Math
open FPUtil FPUtil.FPBits FPUtil.FloatProperties

/-! ### The table inputs -/

/-- The inputs `expf` sends to `expfTable`: not the exceptional input, a magnitude pattern above
    `0x32800000` (`|x| > 2^-26`), and below `89` or a finite `x` of sign `-` above
    `log(2^-150)`. -/
def ExpfTableInput (x : FloatBits) : Prop :=
  x.uintval ≠ 0xc236bd8c ∧ 0x32800000 < x.uintval % 0x80000000 ∧
    (x.uintval < 0x42b20000 ∨ 0x80000000 ≤ x.uintval ∧ x.uintval < 0xc2cff1b5)

/-- The inputs `exp2f` sends to `exp2fTable` in the mode `mode`: not an exceptional input of that
    mode, magnitude pattern above `0x32800000`, and below `128` or a finite `x` of sign `-` above
    `-150`. -/
def Exp2fTableInput (mode : RoundingMode) (x : FloatBits) : Prop :=
  exp2fExceptional mode x.uintval = none ∧ 0x32800000 < x.uintval % 0x80000000 ∧
    (x.uintval < 0x43000000 ∨ 0x80000000 ≤ x.uintval ∧ x.uintval < 0xc3160000)

/-- The inputs the generic `expm1f` sends to its table path: `|x| ≥ 2^-4`, not the exceptional
    input, and below `89` or a finite `x` of sign `-` above `log(2^-25)`. -/
def Generic.Expm1fTableInput (x : FloatBits) : Prop :=
  x.uintval ≠ 0xbdc1c6cb ∧ 0x3d800000 ≤ x.uintval % 0x80000000 ∧
    (x.uintval < 0x42b20000 ∨ 0x80000000 ≤ x.uintval ∧ x.uintval < 0xc18aa123)

/-- The inputs the `expm1f` of `unnamed/part_005` sends to its table path: as in the generic one,
    with its own exceptional input. -/
def Part005.Expm1fTableInput (x : FloatBits) : Prop :=
  x.uintval ≠ 0x3e35bec5 ∧ 0x3d800000 ≤ x.uintval % 0x80000000 ∧
    (x.uintval < 0x42b20000 ∨ 0x80000000 ≤ x.uintval ∧ x.uintval < 0xc18aa123)

instance (x : FloatBits) : Decidable (ExpfTableInput x) :=
  inferInstanceAs (Decidable (_ ∧ _ ∧ _))

instance (mode : RoundingMode) (x : FloatBits) : Decidable (Exp2fTableInput mode x) :=
  inferInstanceAs (Decidable (_ ∧ _ ∧ _))

instance (x : FloatBits) : Decidable (Generic.Expm1fTableInput x) :=
  inferInstanceAs (Decidable (_ ∧ _ ∧ _))

instance (x : FloatBits) : Decidable (Part005.Expm1fTableInput x) :=
  inferInstanceAs (Decidable (_ ∧ _ ∧ _))

/-! ### The functions on their table inputs -/

section Paths
variable (T : ExpTables) (env : FEnv) (x : FloatBits)

theorem exp2f_of_tableInput (h : Exp2fTableInput env.round x) :
    exp2f env x = (exp2fTable env.round x, env) := by
  obtain ⟨h0, h1, h2 | ⟨h2, h3⟩⟩ := h
  · simp (disch := omega) only [exp2f, h0, if_pos, if_neg, FloatBits.land_abs]
  · rcases lt_or_le (x.uintval % 0x80000000) 0x43000000 with h4 | h4
    · simp (disch := omega) only [exp2f, h0, if_pos, if_neg, FloatBits.land_abs]
    · simp (disch := omega) only [exp2f, h0, if_pos, if_neg, FloatBits.land_abs,
        FloatBits.getSign_eq, decide_eq_false_iff_not, decide_eq_true_eq]

theorem Generic.expm1f_of_tableInput (h : Generic.Expm1fTableInput x) :
    Generic.expm1f T env x = (Generic.expm1fTable T env.round x, env) := by
  obtain ⟨h0, h1, h2⟩ := h
  simp (disch := omega) only [Generic.expm1f, if_pos, if_neg, FloatBits.getUnbiasedExponent_eq,
    FloatBits.getSign_eq, decide_eq_false_iff_not]

theorem Part005.expm1f_of_tableInput (h : Part005.Expm1fTableInput x) :
    Part005.expm1f T env x = (Part005.expm1fTable T env.round x, env) := by
  obtain ⟨h0, h1, h2⟩ := h
  rcases lt_or_le (x.uintval % 0x80000000) 0x418aa123 with h4 | h4
  · simp (disch := omega) only [Part005.expm1f, Part005.expm1fReduced, if_pos, if_neg,
      FloatBits.land_abs]
  · simp (disch := omega) only [Part005.expm1f, Part005.expm1fReduced, if_pos, if_neg,
      FloatBits.land_abs, FloatBits.getSign_eq, decide_eq_false_iff_not, decide_eq_true_eq]

end Paths

/-! ### Values of the table inputs -/

namespace FloatBits
variable {x : FloatBits}

/-- A `float` at most the pattern `c` of sign `+`, or of sign `-` with magnitude field at most `d`,
    is finite and lies between `-d` and `c`. -/
theorem toRat_mem_of_le {c d : Nat} (hc : c < 0x7f800000) (hd : d < 0x7f800000)
    (h : x.uintval ≤ c ∨ 0x80000000 ≤ x.uintval ∧ x.uintval % 0x80000000 ≤ d) :
    x.isInfOrNan = false ∧ -(ofNat float d).toRat ≤ x.toRat ∧ x.toRat ≤ (ofNat float c).toRat := by
  have hx : x.isInfOrNan = false := isInfOrNan_eq_false (by have := uintval_lt_two_pow x; omega)
  have hpos : ∀ n : Nat, n < 0x7f800000 → 0 ≤ (ofNat float n).toRat := fun n hn => by
    have hu : (ofNat float n).uintval = n := Nat.mod_eq_of_lt (show n < 2 ^ 32 by omega)
    exact toRat_nonneg (isInfOrNan_eq_false (by rw [hu]; omega))
      (by rw [getSign_eq, hu, decide_eq_false_iff_not]; omega)
  have habs := neg_abs_le x.toRat
  have habs' := le_abs_self x.toRat
  rcases h with h | ⟨h1, h2⟩
  · have hs : x.getSign = false := by rw [getSign_eq, decide_eq_false_iff_not]; omega
    have := abs_toRat_le hx hc (by omega)
    exact ⟨hx, by linarith [toRat_nonneg hx hs, hpos d hd], by linarith⟩
  · have hs : x.getSign = true := by rw [getSign_eq, decide_eq_true_iff]; exact h1
    have := abs_toRat_le hx hd h2
    exact ⟨hx, by linarith, by linarith [toRat_nonpos hx hs, hpos c hc]⟩

/-- A finite `float` with magnitude field at least `0x3d800000` has magnitude at least `2^-4`. -/
theorem two_zpow_le_abs_toRat_of_le (hx : x.isInfOrNan = false)
    (h : 0x3d800000 ≤ x.uintval % 0x80000000) : (2 : ℚ) ^ (-4 : Int) ≤ |x.toRat| := by
  have hE : x.getUnbiasedExponent ≠ 0 := by rw [getUnbiasedExponent_eq]; omega
  refine le_trans (two_zpow_le ?_) (two_zpow_le_abs_toRat hx hE)
  rw [getUnbiasedExponent_eq]; omega

end FloatBits

section Bounds
variable {mode : RoundingMode} {x : FloatBits}

theorem ExpfTableInput.bounds (h : ExpfTableInput x) :
    x.isInfOrNan = false ∧ -104 ≤ x.toRat ∧ x.toRat ≤ 89 := by
  obtain ⟨-, -, h⟩ := h
  have hv := FloatBits.toRat_mem_of_le (x := x) (c := 0x42b20000) (d := 0x42d00000) (by norm_num)
    (by norm_num) (by omega)
  rw [FloatBits.toRat_ofNat (by norm_num) (by norm_num),
    FloatBits.toRat_ofNat (by norm_num) (by norm_num)] at hv
  norm_num at hv
  exact hv

theorem Exp2fTableInput.bounds (h : Exp2fTableInput mode x) :
    x.isInfOrNan = false ∧ -150 ≤ x.toRat ∧ x.toRat ≤ 128 := by
  obtain ⟨-, -, h⟩ := h
  have hv := FloatBits.toRat_mem_of_le (x := x) (c := 0x43000000) (d := 0x43160000) (by norm_num)
    (by norm_num) (by omega)
  rw [FloatBits.toRat_ofNat (by norm_num) (by norm_num),
    FloatBits.toRat_ofNat (by norm_num) (by norm_num)] at hv
  norm_num at hv
  exact hv

/-- The table inputs of both `expm1f`: finite, in `[-18, 89]`, of magnitude at least `2^-4`. -/
theorem expm1fTableInput_bounds (h1 : 0x3d800000 ≤ x.uintval % 0x80000000)
    (h2 : x.uintval < 0x42b20000 ∨ 0x80000000 ≤ x.uintval ∧ x.uintval < 0xc18aa123) :
    x.isInfOrNan = false ∧ -18 ≤ x.toRat ∧ x.toRat ≤ 89 ∧ (2 : ℚ) ^ (-4 : Int) ≤ |x.toRat| := by
  have hv := FloatBits.toRat_mem_of_le (x := x) (c := 0x42b20000) (d := 0x41900000) (by norm_num)
    (by norm_num) (by omega)
  rw [FloatBits.toRat_ofNat (by norm_num) (by norm_num),
    FloatBits.toRat_ofNat (by norm_num) (by norm_num)] at hv
  norm_num at hv
  exact ⟨hv.1, hv.2.1, hv.2.2, FloatBits.two_zpow_le_abs_toRat_of_le hv.1 h1⟩

end Bounds

/-! ### Table indices -/

/-- The exponent `e_hi = (x_hi >> 6) + 1023` of `exp2f` is a normal biased exponent, the `double`
    assembled from `e_hi << 52` is `2^(x_hi >> 6)` (positive, normal, finite), `EXP_M[x_hi & 0x3f]`
    is in range, and the two parts give back `x_hi`. -/
def Exp2TableIndices (x_hi : Int) : Prop :=
  let e_hi := (x_hi >>> (6 : Nat)) + (double.exponentBias : Int)
  let exp_hi : DoubleBits := ofNat double ((e_hi % (2 ^ 64 : Nat)).toNat <<< double.mantissaWidth)
  1 ≤ e_hi ∧ e_hi ≤ 2046 ∧ exp_hi.isInfOrNan = false ∧ exp_hi.getSign = false ∧
    exp_hi.getUnbiasedExponent ≠ 0 ∧ exp_hi.toRat = 2 ^ (x_hi >>> (6 : Nat)) ∧
    (x_hi % 2 ^ 6).toNat < expM.length ∧ 2 ^ 6 * (x_hi >>> (6 : Nat)) + x_hi % 2 ^ 6 = x_hi

/-- The `double` with exponent field `E`, `1 ≤ E ≤ 2046`, and mantissa field zero is
    `2^(E - 1023)`. -/
theorem toRat_build_double {E : Nat} (h1 : 1 ≤ E) (h2 : E ≤ 2046) :
    (build double false E 0).toRat = 2 ^ ((E : Int) - 1023) := by
  have hE : E < 2 ^ double.exponentWidth - 1 := by show E < 2 ^ 11 - 1; omega
  have hM : 0 < 2 ^ double.mantissaWidth := Nat.two_pow_pos _
  rw [toRat, toFPValue_build_normal false (by omega) hE hM, FPValue.toRat_finite_false,
    double_mantissaWidth, double_minQuantum, zero_add, Nat.cast_pow, Nat.cast_ofNat,
    ← two_zpow_natCast, ← two_zpow_add]
  congr 1; push_cast; ring

theorem exp2TableIndices_of_mem {x_hi : Int} (h1 : -150 * 2 ^ 6 ≤ x_hi) (h2 : x_hi ≤ 128 * 2 ^ 6) :
    Exp2TableIndices x_hi := by
  have hsh : x_hi >>> (6 : Nat) = x_hi / 64 := Int.shiftRight_eq_div_pow x_hi 6
  obtain ⟨E, hE⟩ : ∃ E : Nat, (E : Int) = x_hi / 64 + 1023 := ⟨(x_hi / 64 + 1023).toNat, by omega⟩
  have hE' : (((x_hi >>> (6 : Nat)) + (double.exponentBias : Int)) % (2 ^ 64 : Nat)).toNat = E := by
    rw [hsh, double_exponentBias]; omega
  have hbuild : ofNat double ((((x_hi >>> (6 : Nat)) + (double.exponentBias : Int)) %
      (2 ^ 64 : Nat)).toNat <<< double.mantissaWidth) = build double false E 0 := by
    rw [hE', build, Nat.shiftLeft_eq, Bool.toNat_false, Nat.zero_mul, Nat.zero_add, Nat.add_zero]
  have hE1 : 1 ≤ E := by omega
  have hE2 : E ≤ 2046 := by omega
  have hEw : E < 2 ^ double.exponentWidth := by show E < 2 ^ 11; omega
  have hM : 0 < 2 ^ double.mantissaWidth := Nat.two_pow_pos _
  simp only [Exp2TableIndices]
  rw [hbuild]
  simp only [getSign_build false hEw hM,
    getUnbiasedExponent_build false hEw hM, toRat_build_double hE1 hE2, isInfOrNan,
    show expM.length = 64 from rfl, hsh, double_exponentBias]
  refine ⟨by omega, by omega, ?_, trivial, by omega, ?_, by omega, by omega⟩
  · rw [beq_eq_false_iff_ne]; show E ≠ 2 ^ 11 - 1; omega
  · congr 1; omega

/-! ### Exact splits -/

/-- `x = x_hi * 2^-k + lo` exactly, with `lo` finite and `|lo| ≤ 2^-(k+1)`: the split the comments
    of the range reductions describe (`x = hi + mid + lo`, `-2^-(k+1) ≤ lo < 2^-(k+1)`). -/
def ExactSplit {G : FloatProperties} (k : Int) (x : FloatBits) (x_hi : Int) (lo : FPBits G) : Prop :=
  lo.isInfOrNan = false ∧ x.toRat = x_hi * 2 ^ (-k) + lo.toRat ∧ |lo.toRat| ≤ 2 ^ (-k - 1)

/-- Converting a `float` residual to `double` keeps the split. -/
theorem ExactSplit.toDouble {k x_hi : Int} {x lo : FloatBits} (mode : RoundingMode)
    (h : ExactSplit k x x_hi lo) : ExactSplit k x x_hi (convert double mode lo) := by
  obtain ⟨hf, heq, habs⟩ := h
  have hv := FiniteValue.toDouble (finiteValue_toRat lo hf)
  have hd := convert_within mode hf hv hv le_rfl le_rfl
  exact ⟨hd.isInfOrNan_eq, by rw [hd.toRat_eq]; exact heq, by rw [hd.toRat_eq]; exact habs⟩

/-- Where `2^-(k+1) ≤ |x|`, the rounding reduction is an exact split. -/
theorem roundingReduction_exactSplit {k : Nat} (mode : RoundingMode) {x : FloatBits} (hk : k ≤ 100)
    (hx : x.isInfOrNan = false) (h1 : (2 : ℚ) ^ (-(k : Int) - 1) ≤ |x.toRat|)
    (h2 : |x.toRat * 2 ^ (k : Int)| < 2 ^ 22) :
    ExactSplit k x (roundingReduction k mode x).1 (roundingReduction k mode x).2 := by
  have hk2 := two_zpow_pos (k : Int)
  have hhalf : (2 : ℚ) ^ (-(k : Int) - 1) * 2 ^ (k : Int) = 1 / 2 := by
    rw [← two_zpow_add, show -(k : Int) - 1 + k = -1 by ring]; norm_num
  obtain ⟨hw, hnear⟩ := roundingReduction_exact mode hk hx
    (by rw [abs_mul, abs_of_pos hk2, ← hhalf]; exact mul_le_mul_of_nonneg_right h1 hk2.le) h2
  have hlo : (roundingReduction k mode x).2.toRat =
      (x.toRat * 2 ^ (k : Int) - (roundingReduction k mode x).1) * 2 ^ (-(k : Int)) := by
    rw [hw.toRat_eq, sub_mul, mul_assoc, ← two_zpow_add, add_neg_cancel, zpow_zero, mul_one]
  refine ⟨hw.isInfOrNan_eq, by rw [hw.toRat_eq]; ring, ?_⟩
  calc |(roundingReduction k mode x).2.toRat|
      = |x.toRat * 2 ^ (k : Int) - (roundingReduction k mode x).1| * 2 ^ (-(k : Int)) := by
        rw [hlo, abs_mul, abs_of_pos (two_zpow_pos _)]
    _ ≤ 1 / 2 * 2 ^ (-(k : Int)) := mul_le_mul_of_nonneg_right hnear (two_zpow_pos _).le
    _ = 2 ^ (-(k : Int) - 1) := by rw [sub_eq_add_neg, two_zpow_add]; norm_num; ring

/-! ### The range reductions on the table inputs -/

section Reductions
variable (mode : RoundingMode) (x : FloatBits)

theorem exp2fTable_index (h : Exp2fTableInput mode x) :
    Exp2TableIndices (roundingReduction 6 mode x).1 := by
  obtain ⟨hx, hlo, hhi⟩ := h.bounds
  have h64 : (2 : ℚ) ^ ((6 : Nat) : Int) = 64 := by norm_num
  obtain ⟨h1, h2⟩ := roundingReduction_fst_mem mode (k := 6) (A := 9600) (B := 8192)
    (by norm_num) hx (by norm_num) (by norm_num) (by rw [h64]; push_cast; linarith)
    (by rw [h64]; push_cast; linarith)
  exact exp2TableIndices_of_mem (by omega) (by omega)

/-- On a table input of `expf` with `|x| ≥ 2^-8` the split is exact. -/
theorem expfTable_exactSplit (h : ExpfTableInput x) (hx8 : (2 : ℚ) ^ (-8 : Int) ≤ |x.toRat|) :
    ExactSplit 7 x (roundingReduction 7 mode x).1 (roundingReduction 7 mode x).2 := by
  obtain ⟨hx, hlo, hhi⟩ := h.bounds
  have h128 : (2 : ℚ) ^ ((7 : Nat) : Int) = 128 := by norm_num
  have hxa : |x.toRat| ≤ 104 := abs_le.mpr ⟨hlo, by linarith⟩
  exact roundingReduction_exactSplit mode (k := 7) (by norm_num) hx (by norm_num at hx8 ⊢; exact hx8)
    (by rw [abs_mul, h128, abs_of_pos (by norm_num : (0 : ℚ) < 128)]; linarith)

/-- On a table input of `exp2f` with `|x| ≥ 2^-7` the split is exact. -/
theorem exp2fTable_exactSplit (h : Exp2fTableInput mode x) (hx7 : (2 : ℚ) ^ (-7 : Int) ≤ |x.toRat|) :
    ExactSplit 6 x (roundingReduction 6 mode x).1 (roundingReduction 6 mode x).2 := by
  obtain ⟨hx, hlo, hhi⟩ := h.bounds
  have h64 : (2 : ℚ) ^ ((6 : Nat) : Int) = 64 := by norm_num
  have hxa : |x.toRat| ≤ 150 := abs_le.mpr ⟨hlo, by linarith⟩
  exact roundingReduction_exactSplit mode (k := 6) (by norm_num) hx (by norm_num at hx7 ⊢; exact hx7)
    (by rw [abs_mul, h64, abs_of_pos (by norm_num : (0 : ℚ) < 64)]; linarith)

/-- The split of the generic `expm1f`: exact, with `lo < 2^-8` from the explicit corrections. -/
theorem Generic.expm1fTable_reduction (h : Generic.Expm1fTableInput x) :
    ExactSplit 7 x (truncReduction mode x).1 (truncReduction mode x).2 ∧
      (truncReduction mode x).2.toRat < 2 ^ (-8 : Int) := by
  obtain ⟨-, h1, h2⟩ := h
  obtain ⟨hx, hxlo, hxhi, habs⟩ := expm1fTableInput_bounds h1 h2
  have h4 : (2 : ℚ) ^ (-8 : Int) ≤ 2 ^ (-4 : Int) := two_zpow_le (by norm_num)
  have hlt : |x.toRat| < 2 ^ 15 := by rw [abs_lt]; constructor <;> linarith
  obtain ⟨hf, heq, hlo, hhi⟩ := truncReduction_exact mode hx (h4.trans habs) hlt
  have h8 : (2 : ℚ) ^ ((-7 : Int) - 1) = 2 ^ (-8 : Int) := by norm_num
  exact ⟨⟨hf, heq, by rw [h8]; exact abs_le.mpr ⟨hlo, hhi.le⟩⟩, hhi⟩

/-- The split of the `expm1f` of `unnamed/part_005`: `|x| ≥ 2^-4`, so it is exact. -/
theorem Part005.expm1fTable_reduction (h : Part005.Expm1fTableInput x) :
    ExactSplit 7 x (roundingReduction 7 mode x).1
      (convert double mode (roundingReduction 7 mode x).2) := by
  obtain ⟨-, h1, h2⟩ := h
  obtain ⟨hx, hlo, hhi, habs⟩ := expm1fTableInput_bounds h1 h2
  have h128 : (2 : ℚ) ^ ((7 : Nat) : Int) = 128 := by norm_num
  have h4 : (2 : ℚ) ^ (-((7 : Nat) : Int) - 1) ≤ 2 ^ (-4 : Int) := two_zpow_le (by norm_num)
  have hxa : |x.toRat| ≤ 89 := abs_le.mpr ⟨by linarith, hhi⟩
  exact (roundingReduction_exactSplit mode (k := 7) (by norm_num) hx (h4.trans habs)
    (by rw [abs_mul, h128, abs_of_pos (by norm_num : (0 : ℚ) < 128)]; linarith)).toDouble mode

end Reductions

/-! ### The functions on their table paths -/

section Functions
variable (T : ExpTables) (env : FEnv) (x : FloatBits)

/-- On every input on which either `expm1f` reaches its range reduction, in every rounding mode,
    `x = x_hi * 2^-7 + lo` exactly for the `double` `lo` the polynomial reads, with
    `|lo| ≤ 2^-8`, and `lo < 2^-8` in the generic implementation. -/
theorem expm1f_split_exact :
    (Generic.Expm1fTableInput x →
      Generic.expm1f T env x = (Generic.expm1fTable T env.round x, env) ∧
      ExactSplit 7 x (truncReduction env.round x).1 (truncReduction env.round x).2 ∧
      (truncReduction env.round x).2.toRat < 2 ^ (-8 : Int)) ∧
    (Part005.Expm1fTableInput x →
      Part005.expm1f T env x = (Part005.expm1fTable T env.round x, env) ∧
      ExactSplit 7 x (roundingReduction 7 env.round x).1
        (convert double env.round (roundingReduction 7 env.round x).2)) :=
  ⟨fun h => ⟨Generic.expm1f_of_tableInput T env x h, Generic.expm1fTable_reduction _ x h⟩,
    fun h => ⟨Part005.expm1f_of_tableInput T env x h, Part005.expm1fTable_reduction _ x h⟩⟩

/-- At `1`, both `expm1f` split exactly. -/
theorem expm1f_split_exact_at_one :
    Generic.Expm1fTableInput (ofNat float 0x3f800000) ∧
      Part005.Expm1fTableInput (ofNat float 0x3f800000) ∧
      ExactSplit 7 (ofNat float 0x3f800000) (truncReduction .toNearest (ofNat float 0x3f800000)).1
        (truncReduction .toNearest (ofNat float 0x3f800000)).2 ∧
      ExactSplit 7 (ofNat float 0x3f800000)
        (roundingReduction 7 .toNearest (ofNat float 0x3f800000)).1
        (convert double .toNearest (roundingReduction 7 .toNearest (ofNat float 0x3f800000)).2) := by
  have h := expm1f_split_exact ⟨fun _ => zero double false, fun _ => zero double false⟩
    ⟨.toNearest, 0, false⟩ (ofNat float 0x3f800000)
  have h1 : Generic.Expm1fTableInput (ofNat float 0x3f800000) := by decide
  have h2 : Part005.Expm1fTableInput (ofNat float 0x3f800000) := by decide
  exact ⟨h1, h2, (h.1 h1).2.1, (h.2 h2).2⟩

/-- On every table input of `expf` with `|x| ≥ 2^-8` and of `exp2f` with `|x| ≥ 2^-7`, in every
    rounding mode, the float residual `lo` splits `x` exactly, with `|lo| ≤ 2^-(k+1)`. -/
theorem rounding_split_exact :
    (ExpfTableInput x → (2 : ℚ) ^ (-8 : Int) ≤ |x.toRat| →
      ExactSplit 7 x (roundingReduction 7 env.round x).1 (roundingReduction 7 env.round x).2) ∧
    (Exp2fTableInput env.round x → (2 : ℚ) ^ (-7 : Int) ≤ |x.toRat| →
      ExactSplit 6 x (roundingReduction 6 env.round x).1 (roundingReduction 6 env.round x).2) :=
  ⟨expfTable_exactSplit env.round x, exp2fTable_exactSplit env.round x⟩

/-- At `1`, the splits of `expf` and `exp2f` are exact. -/
theorem rounding_split_exact_at_one :
    ExactSplit 7 (ofNat float 0x3f800000)
        (roundingReduction 7 .toNearest (ofNat float 0x3f800000)).1
        (roundingReduction 7 .toNearest (ofNat float 0x3f800000)).2 ∧
      ExactSplit 6 (ofNat float 0x3f800000)
        (roundingReduction 6 .toNearest (ofNat float 0x3f800000)).1
        (roundingReduction 6 .toNearest (ofNat float 0x3f800000)).2 := by
  have h := rounding_split_exact ⟨.toNearest, 0, false⟩ (ofNat float 0x3f800000)
  have hone : (ofNat float 0x3f800000).toRat = 1 := by
    rw [FloatBits.toRat_ofNat (by norm_num) (by norm_num)]; norm_num
  exact ⟨h.1 (by decide) (by rw [hone]; norm_num), h.2 (by decide) (by rw [hone]; norm_num)⟩

end Functions

/-- `expf` at `x = 2^-8 - 2^-32` (bits `0x3b7fffff`) rounded to nearest: `x * 2^7 + 0.5 = 1 - 2^-25`
    is a tie that the float addition rounds to `1`, so `x_hi = 1` although `x * 2^7` rounds to `0`,
    and `x - 2^-7 = -(2^-8 + 2^-32)` rounds to `lo = -2^-8`: `x_hi * 2^-7 + lo` misses `x` by
    `2^-32`. `exp2f` does the same at `x = 2^-7 - 2^-31` (bits `0x3bffffff`). -/
theorem rounding_split_inexact :
    ExpfTableInput (ofNat float 0x3b7fffff) ∧
      roundingReduction 7 .toNearest (ofNat float 0x3b7fffff) = (1, ofNat float 0xbb800000) ∧
      (ofNat float 0x3b7fffff).toRat = 2 ^ (-8 : Int) - 2 ^ (-32 : Int) ∧
      (ofNat float 0xbb800000).toRat = -2 ^ (-8 : Int) ∧
      ⌊(ofNat float 0x3b7fffff).toRat * 2 ^ 7 + 1 / 2⌋ = 0 ∧
      ¬ExactSplit 7 (ofNat float 0x3b7fffff) 1 (ofNat float 0xbb800000) ∧
    Exp2fTableInput .toNearest (ofNat float 0x3bffffff) ∧
      roundingReduction 6 .toNearest (ofNat float 0x3bffffff) = (1, ofNat float 0xbc000000) ∧
      (ofNat float 0x3bffffff).toRat = 2 ^ (-7 : Int) - 2 ^ (-31 : Int) ∧
      (ofNat float 0xbc000000).toRat = -2 ^ (-7 : Int) ∧
      ⌊(ofNat float 0x3bffffff).toRat * 2 ^ 6 + 1 / 2⌋ = 0 ∧
      ¬ExactSplit 6 (ofNat float 0x3bffffff) 1 (ofNat float 0xbc000000) := by
  have hx : (ofNat float 0x3b7fffff).toRat = 2 ^ (-8 : Int) - 2 ^ (-32 : Int) := by
    rw [FloatBits.toRat_ofNat (by norm_num) (by norm_num)]; norm_num
  have hlo : (ofNat float 0xbb800000).toRat = -2 ^ (-8 : Int) := by
    rw [FloatBits.toRat_ofNat_neg (by norm_num) (by norm_num)]; norm_num
  have hy : (ofNat float 0x3bffffff).toRat = 2 ^ (-7 : Int) - 2 ^ (-31 : Int) := by
    rw [FloatBits.toRat_ofNat (by norm_num) (by norm_num)]; norm_num
  have hlo' : (ofNat float 0xbc000000).toRat = -2 ^ (-7 : Int) := by
    rw [FloatBits.toRat_ofNat_neg (by norm_num) (by norm_num)]; norm_num
  refine ⟨by decide, by decide, hx, hlo, ?_, ?_, by decide, by decide, hy, hlo', ?_, ?_⟩
  · rw [hx, Int.floor_eq_iff]; norm_num
  · rintro ⟨-, h, -⟩; rw [hx, hlo] at h; norm_num at h
  · rw [hy, Int.floor_eq_iff]; norm_num
  · rintro ⟨-, h, -⟩; rw [hy, hlo'] at h; norm_num at h

end LlvmLibc.Math
