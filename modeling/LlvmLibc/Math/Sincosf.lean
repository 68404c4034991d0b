import LlvmLibc.Math.Errno

/-! Single-precision sine and cosine at once (`sincosf`, `unnamed/part_004`).

`sincosf` walks the special-value states of §4.4 in order. A signed zero gives `x` and `1`. Below
`2^-12` it returns the roundings of `x - 2^-25 * x` and `1 - 2^-25 * |x|`, computed in `double` on
a target without FMA instructions (as `multiplyAdd` models `multiply_add`). The infinities and NaNs
give a NaN; for an infinity `errno` becomes `EDOM` and `FE_INVALID` is raised. Ten exceptional
magnitudes take their results from a table, per rounding mode. Every other input goes through the
sum formulas over `sincosf_eval`, whose range reduction and tables (`sincosf_utils.h`) are not part
of the sources and are a parameter here.

The environment changes exactly for an infinity (`sincosf_env`), a NaN or an infinity gives two
NaNs (`sincosf_of_isInfOrNan`), and in each rounding mode the exceptional table returns the
directed roundings of a value between two adjacent floats (`exceptResult_directedRoundings`), with
the signs of `sin(-x) = -sin(x)` and `cos(-x) = cos(x)` (`exceptResult_neg`). The tiny-input
branch is correctly rounded in every mode (`Math.TinyInputs`). -/

namespace LlvmLibc.Math
open FPUtil FPUtil.FPBits FPUtil.FloatProperties

/-- `EDOM`. -/
def EDOM : Int := 33

/-! ### The exceptional inputs -/

/-- `EXCEPT_INPUTS`: the magnitudes that the general path would round incorrectly. -/
def exceptInputs : List Nat :=
  [0x3b5637f5, 0x3fa7832a, 0x46199998, 0x55325019, 0x55cafb2a, 0x5922aa80, 0x5aa4542c,
    0x5f18b878, 0x6115cb11, 0x7beef5ef]

/-- `EXCEPT_OUTPUTS_SIN`: per exceptional magnitude, the pattern of `sin(|x|)` rounded toward zero
    (`[0]`), and the increments of that pattern that `x > 0` takes rounded upward (`[1]`), downward
    (`[2]`) and to nearest (`[3]`). -/
def exceptOutputsSin : List (Nat × Nat × Nat × Nat) :=
  [(0x3b5637dc, 1, 0, 0), (0x3f7741b5, 1, 0, 1), (0xbeb1fa5d, 0, 1, 0), (0xbf171adf, 0, 1, 1),
    (0xbf7e7a16, 0, 1, 1), (0xbf587521, 0, 1, 1), (0x3f5f5646, 1, 0, 0), (0x3dad60f6, 1, 0, 1),
    (0xbe7cc1e0, 0, 1, 1), (0xbf587d1b, 0, 1, 1)]

/-- `EXCEPT_OUTPUTS_COS`, laid out as `EXCEPT_OUTPUTS_SIN`. -/
def exceptOutputsCos : List (Nat × Nat × Nat × Nat) :=
  [(0x3f7fffa6, 1, 0, 0), (0x3e84aabf, 1, 0, 1), (0xbf70090b, 0, 1, 0), (0x3f4ea5d2, 1, 0, 0),
    (0x3ddf11f3, 1, 0, 1), (0x3f08aebe, 1, 0, 1), (0x3efa40a4, 1, 0, 0), (0x3f7f14bb, 1, 0, 0),
    (0x3f78142e, 1, 0, 1), (0x3f08a21c, 1, 0, 0)]

/-- The loop `for (int i = 0; i < N_EXCEPTS; ++i) if (x_abs == EXCEPT_INPUTS[i]) ...`, from index
    `i` over the inputs not yet compared: the first index that matches. -/
def exceptLoop (x_abs : Nat) : List Nat → Nat → Option Nat
  | [], _ => none
  | a :: as, i => if x_abs = a then some i else exceptLoop x_abs as (i + 1)

/-- The body of that loop at the matching index `i`, for `x_sign = (x < 0)`: the pattern rounded
    toward zero plus the increment of the mode (`switch (fputil::get_round())`, with no case for
    `FE_TOWARDZERO`), the upward and downward increments exchanged for `x < 0`, and `sin` negated
    for `x < 0`. -/
def exceptResult (mode : RoundingMode) (x_sign : Bool) (i : Nat) : FloatBits × FloatBits :=
  let (s, s1, s2, s3) := exceptOutputsSin.getD i (0, 0, 0, 0)
  let (c, c1, c2, c3) := exceptOutputsCos.getD i (0, 0, 0, 0)
  let (s, c) := match mode with
    | .upward => (s + if x_sign then s2 else s1, c + c1)
    | .downward => (s + if x_sign then s1 else s2, c + c2)
    | .toNearest => (s + s3, c + c3)
    | .towardZero => (s, c)
  (if x_sign then (ofNat float s).neg else ofNat float s, ofNat float c)

/-- The float after a finite nonzero `x` in increasing order: one step up the magnitude for sign
    `+`, one step down for sign `-`. -/
def nextUp (x : FloatBits) : FloatBits :=
  if x.getSign then ofNat float (x.uintval - 1) else ofNat float (x.uintval + 1)

/-- The results `r mode` of the four modes are the roundings of one value strictly between two
    adjacent finite nonzero floats: downward the lower one, upward the next one, toward zero the one
    of smaller magnitude, to nearest one of the two. -/
def DirectedRoundings (r : RoundingMode → FloatBits) : Prop :=
  (r .downward).isInfOrNan = false ∧ (r .upward).isInfOrNan = false ∧
    (r .downward).uintval % 0x80000000 ≠ 0 ∧ (r .upward).uintval % 0x80000000 ≠ 0 ∧
    r .upward = nextUp (r .downward) ∧
    r .towardZero = (if (r .downward).getSign then r .upward else r .downward) ∧
    (r .toNearest = r .downward ∨ r .toNearest = r .upward)

instance (r : RoundingMode → FloatBits) : Decidable (DirectedRoundings r) :=
  inferInstanceAs (Decidable (_ ∧ _ ∧ _ ∧ _ ∧ _ ∧ _ ∧ _))

/-- The exceptional table is consistent: for each exceptional magnitude and either sign of `x`,
    the four modes give the directed roundings of one value, for `sin` and for `cos`. -/
theorem exceptResult_directedRoundings :
    ∀ i < 10, ∀ x_sign : Bool, DirectedRoundings (fun mode => (exceptResult mode x_sign i).1) ∧
      DirectedRoundings (fun mode => (exceptResult mode x_sign i).2) := by
  decide

/-- `sin` is odd and `cos` even on the exceptional inputs: for `x < 0` the results are those of
    `-x` in the mode that rounds the other way, `sin` negated. -/
theorem exceptResult_neg (mode : RoundingMode) (i : Nat) :
    exceptResult mode true i =
      ((exceptResult mode.neg false i).1.neg, (exceptResult mode false i).2) := by
  simp only [exceptResult]
  generalize exceptOutputsSin.getD i (0, 0, 0, 0) = s
  generalize exceptOutputsCos.getD i (0, 0, 0, 0) = c
  obtain ⟨s, s1, s2, s3⟩ := s
  obtain ⟨c, c1, c2, c3⟩ := c
  cases mode <;> rfl

/-- The loop finds `x_abs` at its index. -/
theorem exceptLoop_eq_some {x_abs : Nat} : ∀ {l : List Nat} {i j : Nat},
    exceptLoop x_abs l i = some j → i ≤ j ∧ j < i + l.length ∧ l.getD (j - i) 0 = x_abs
  | [], _, _, h => by simp [exceptLoop] at h
  | a :: as, i, j, h => by
    simp only [exceptLoop] at h
    split_ifs at h with ha
    · cases h; simp [ha]
    · obtain ⟨h1, h2, h3⟩ := exceptLoop_eq_some h
      refine ⟨by omega, by simp; omega, ?_⟩
      rw [show j - i = (j - (i + 1)) + 1 by omega]
      simpa using h3

/-- The exceptional magnitudes are those of finite normal floats above `2^-12`. -/
theorem exceptInputs_mem : ∀ i < 10,
    0x39800000 ≤ exceptInputs.getD i 0 ∧ exceptInputs.getD i 0 < 0x7f800000 := by
  decide

/-! ### `sincosf` -/

/-- Modelled from the spec: `sincosf_eval(xd, x_abs, sin_k, cos_k, sin_y, cosm1_y)` of
    `sincosf_utils.h`, which is not part of the sources: from `x` as a `double` and its magnitude
    pattern, in the rounding mode, the `double`s `sin(k * pi/16)`, `cos(k * pi/16)`,
    `sin(y * pi/16)` and `cos(y * pi/16) - 1` for `x = (k + y) * pi/16`. -/
structure SincosfEval where
  eval : RoundingMode → DoubleBits → Nat → DoubleBits × DoubleBits × DoubleBits × DoubleBits

/-- `sincosf(x, sinp, cosp)` on a target without FMA instructions: `(*sinp, *cosp)` and the
    environment after the call. -/
def sincosf (E : SincosfEval) (env : FEnv) (x : FloatBits) : (FloatBits × FloatBits) × FEnv :=
  let mode := env.round
  let x_abs := x.uintval &&& 0x7fffffff
  let xd := convert double mode x
  -- |x| < 0x1.0p-12f
  if x_abs < 0x39800000 then
    -- For signed zeros.
    if x_abs = 0 then ((x, float.lit 1 0), env)
    else ((convert float mode (multiplyAdd mode xd (double.lit 1 (-25)).neg xd),
      convert float mode (multiplyAdd mode (convert double mode (ofNat float x_abs))
        (double.lit 1 (-25)).neg (double.lit 1 0))), env)
  -- x is inf or nan.
  else if 0x7f800000 ≤ x_abs then
    let env := if x_abs = 0x7f800000 then { env with errno := EDOM, invalid := true } else env
    let r := add mode x (buildNan float (1 <<< (float.mantissaWidth - 1)))
    ((r, r), env)
  -- Check exceptional values.
  else match exceptLoop x_abs exceptInputs 0 with
    | some i => (exceptResult mode (x.lt (zero float false)) i, env)
    | none =>
      let (sin_k, cos_k, sin_y, cosm1_y) := E.eval mode xd x_abs
      ((convert float mode (multiplyAdd mode sin_y cos_k (multiplyAdd mode cosm1_y sin_k sin_k)),
        convert float mode (multiplyAdd mode sin_y sin_k.neg (multiplyAdd mode cosm1_y cos_k cos_k))),
        env)

section Sincosf
variable (E : SincosfEval) (env : FEnv) (x : FloatBits)

/-- `sincosf` sets `errno` to `EDOM` and raises `FE_INVALID` for an infinite `x`, and leaves the
    environment alone for every other input, NaNs included. -/
theorem sincosf_env : (sincosf E env x).2 =
    if x.uintval % 0x80000000 = 0x7f800000 then { env with errno := EDOM, invalid := true }
    else env := by
  simp only [sincosf, FloatBits.land_abs]
  split_ifs with h1 h2 h3 <;> first | rfl | omega | (split <;> rfl)

/-- For a NaN or an infinite `x` both results are NaNs. -/
theorem sincosf_of_isInfOrNan (h : x.isInfOrNan = true) :
    (sincosf E env x).1.1.isNan = true ∧ (sincosf E env x).1.2.isNan = true := by
  have hx : 0x7f800000 ≤ x.uintval % 0x80000000 := by
    have := FloatBits.isInfOrNan_eq x
    rw [h] at this
    exact of_decide_eq_true this.symm
  have hnan : (buildNan float (1 <<< (float.mantissaWidth - 1))).isNan = true := by decide
  simp only [sincosf, FloatBits.land_abs, if_neg (show ¬x.uintval % 0x80000000 < 0x39800000 by omega),
    if_pos hx]
  exact ⟨isNan_add_of_isNan_right hnan, isNan_add_of_isNan_right hnan⟩

/-- On an exceptional magnitude `sincosf` returns the table's results for the sign of `x`. -/
theorem sincosf_of_exceptLoop {i : Nat}
    (h : exceptLoop (x.uintval % 0x80000000) exceptInputs 0 = some i) :
    sincosf E env x = (exceptResult env.round x.getSign i, env) := by
  obtain ⟨-, hi, hx⟩ := exceptLoop_eq_some h
  simp only [Nat.sub_zero, zero_add, show exceptInputs.length = 10 from rfl] at hi hx
  have hb := exceptInputs_mem i hi
  rw [hx] at hb
  have hf : x.isInfOrNan = false := FloatBits.isInfOrNan_eq_false (by omega)
  have hE : x.getUnbiasedExponent ≠ 0 := by rw [FloatBits.getUnbiasedExponent_eq]; omega
  simp only [sincosf, FloatBits.land_abs, if_neg (show ¬x.uintval % 0x80000000 < 0x39800000 by omega),
    if_neg (show ¬0x7f800000 ≤ x.uintval % 0x80000000 by omega), h, lt_zero_eq_getSign hf hE]

/-- On the exceptional inputs, in each rounding mode, `sincosf` returns the directed roundings of
    one value between two adjacent floats for `sin` and for `cos`, and `sin` is odd and `cos` even:
    `sin(-x)` is `-sin(x)` of the mode rounding the other way, `cos(-x)` is `cos(x)`. -/
theorem sincosf_exceptional (errno : Int) (invalid : Bool) {i : Nat}
    (h : exceptLoop (x.uintval % 0x80000000) exceptInputs 0 = some i) :
    DirectedRoundings (fun mode => (sincosf E ⟨mode, errno, invalid⟩ x).1.1) ∧
    DirectedRoundings (fun mode => (sincosf E ⟨mode, errno, invalid⟩ x).1.2) ∧
    ∀ mode, (sincosf E ⟨mode, errno, invalid⟩ x.neg).1 =
      ((sincosf E ⟨mode.neg, errno, invalid⟩ x).1.1.neg, (sincosf E ⟨mode, errno, invalid⟩ x).1.2) := by
  have hi : i < 10 := by
    have := (exceptLoop_eq_some h).2.1
    simpa using this
  have hn : exceptLoop (x.neg.uintval % 0x80000000) exceptInputs 0 = some i := by
    rw [show (0x80000000 : Nat) = 2 ^ (float.exponentWidth + float.mantissaWidth) from rfl,
      neg_uintval_mod]
    exact h
  simp only [sincosf_of_exceptLoop E _ x h, sincosf_of_exceptLoop E _ x.neg hn, getSign_neg]
  refine ⟨(exceptResult_directedRoundings i hi x.getSign).1,
    (exceptResult_directedRoundings i hi x.getSign).2, fun mode => ?_⟩
  cases hs : x.getSign
  · exact exceptResult_neg mode i
  · rw [Bool.not_true, exceptResult_neg mode.neg i, RoundingMode.neg_neg,
      exceptResult_neg mode i, neg_involutive]

end Sincosf

/-! ### NaN arguments -/

/-- A NaN argument gives NaN results in `expf`, `exp2f`, both `expm1f` and `sincosf`, in every
    rounding mode, and a quiet one leaves the environment unchanged. (For a signaling NaN the code's
    `x + inf` and `x + build_nan(1)` raise `FE_INVALID`.) -/
theorem nan_propagates (T : ExpTables) (E : SincosfEval) (env : FEnv) (x : FloatBits)
    (h : x.isNan = true) :
    (expf T env x).1.isNan = true ∧ (exp2f env x).1.isNan = true ∧
    (Generic.expm1f T env x).1.isNan = true ∧ (Part005.expm1f T env x).1.isNan = true ∧
    (sincosf E env x).1.1.isNan = true ∧ (sincosf E env x).1.2.isNan = true ∧
    (x.isSignalingNan = false →
      (expf T env x).2 = env ∧ (exp2f env x).2 = env ∧ (Generic.expm1f T env x).2 = env ∧
      (Part005.expm1f T env x).2 = env ∧ (sincosf E env x).2 = env) := by
  have hr := isNan_nanResult x h env.round
  have hu : 0x7f800000 < x.uintval % 0x80000000 := by
    rw [FloatBits.isNan_eq] at h; exact of_decide_eq_true h
  have hs := sincosf_of_isInfOrNan E env x (by rw [FloatBits.isInfOrNan_eq]; exact decide_eq_true hu.le)
  rw [expf_of_isNan T env x h, exp2f_of_isNan env x h, Generic.expm1f_of_isNan T env x h,
    Part005.expm1f_of_isNan T env x h, sincosf_env,
    if_neg (show ¬x.uintval % 0x80000000 = 0x7f800000 by omega)]
  exact ⟨hr, hr, hr, hr, hs.1, hs.2, fun _ => ⟨rfl, rfl, rfl, rfl, rfl⟩⟩

/-- The default NaN, rounded to nearest. -/
theorem nan_propagates_default :
    (ofNat float 0x7fc00000).isNan = true ∧
    (expf ⟨fun _ => zero double false, fun _ => zero double false⟩ ⟨.toNearest, 0, false⟩
      (ofNat float 0x7fc00000)).1.isNan = true :=
  ⟨by decide, (nan_propagates ⟨fun _ => zero double false, fun _ => zero double false⟩
    ⟨fun _ _ _ => (zero double false, zero double false, zero double false, zero double false)⟩
    ⟨.toNearest, 0, false⟩ (ofNat float 0x7fc00000) (by decide)).1⟩

end LlvmLibc.Math
