import LlvmLibc.Math.Common

/-! Single-precision `e^x - 1`, in the two implementations the sources hold: the generic one
(`src/math/generic/expm1f.cpp`) and the one of `unnamed/part_005`.

Both return the inputs with `x < log(2^-25)` or `x ≥ 89` (and NaN) directly, setting `errno` only
for a finite `x ≥ 89` rounded to nearest or upward; for `|x| < 2^-4` they evaluate a polynomial or,
below `2^-25`, `fma(x, x, x)`. Every other input is range reduced to `x = x_hi * 2^-7 + lo` and goes
through the tables `EXP_M1`, `EXP_M2` and a polynomial in `lo`. The generic implementation
truncates `x * 2^7` and corrects `x_hi` by one (`truncReduction`); the other rounds `x * 2^7` by
adding `±0.5` before the truncation (`roundingReduction 7`). -/

namespace LlvmLibc.Math
open FPUtil FPUtil.FPBits FPUtil.FloatProperties

namespace Generic

/-- Lines 107-134 of the generic `expm1f`: the range reduction, the lookups, the polynomial, and
    `fma(exp_hi_mid, exp_lo, -1.0)`. -/
def expm1fTable (T : ExpTables) (mode : RoundingMode) (x : FloatBits) : FloatBits :=
  let (x_hi, xd) := truncReduction mode x
  let x_hi := x_hi + (104 <<< 7 : Nat)
  let exp_hi := T.expM1 (x_hi >>> (7 : Nat)).toNat
  let exp_mid := T.expM2 (x_hi % 2 ^ 7).toNat
  let exp_hi_mid := mul mode exp_hi exp_mid
  let exp_lo := polyeval mode xd [double.lit 1 0, double.lit 1 0, double.lit 1 (-1),
    double.lit 0x15555555555555 (-55), double.lit 0x155555555553a (-53),
    double.lit 0x11111111204dfc (-59), double.lit 0x16c16cb2da593a (-62),
    double.lit 0x19ff1648996d2e (-65)]
  convert float mode (fma mode exp_hi_mid exp_lo (double.lit 1 0).neg)

/-- `expm1f(x)` of `src/math/generic/expm1f.cpp`: the result and the environment after the call. -/
def expm1f (T : ExpTables) (env : FEnv) (x : FloatBits) : FloatBits × FEnv :=
  let mode := env.round
  -- When x < log(2^-25) or nan
  if 0xc18aa123 ≤ x.uintval then
    if x.isInf then ((float.lit 1 0).neg, env)
    else if x.isNan then (x, env)
    else if mode = .upward ∨ mode = .towardZero then ((float.lit 0x1fffffe (-25)).neg, env)
    else ((float.lit 1 0).neg, env)
  -- x >= 89 or nan
  else if x.getSign = false ∧ 0x42b20000 ≤ x.uintval then
    if x.uintval < 0x7f800000 then
      if mode = .downward ∨ mode = .towardZero then (maxNormal float, env)
      else (add mode x (inf float false), { env with errno := ERANGE })
    else (add mode x (inf float false), env)
  else
    let unbiased_exponent := x.getUnbiasedExponent
    -- |x| < 2^-4
    if unbiased_exponent < 123 then
      -- |x| < 2^-25
      if unbiased_exponent < 102 then
        -- x = -0.0f
        if x.uintval = 0x80000000 then (x, env)
        else (fma mode x x x, env)
      else
        let xd := convert double mode x
        let xsq := mul mode xd xd
        let r := polyeval mode xd [double.lit 1 (-1), double.lit 0x155555555559ab (-55),
          double.lit 0x155555555551a7 (-57), double.lit 0x1111110f70f2a4 (-59),
          double.lit 0x16c16c17639e82 (-62), double.lit 0x1a02526febbea6 (-65),
          double.lit 0x1a01dc40888fcd (-68)]
        (convert float mode (fma mode r xsq xd), env)
    -- Exceptional value
    else if x.uintval = 0xbdc1c6cb then
      if mode = .toNearest ∨ mode = .downward then ((float.lit 0x171c884 (-28)).neg, env)
      else ((float.lit 0x171c882 (-28)).neg, env)
    else (expm1fTable T mode x, env)

end Generic

namespace Part005

/-- Lines 117-135 of the `expm1f` of `unnamed/part_005`: the range reduction, the lookups, the
    polynomial, and `multiply_add(exp_hi_mid, exp_lo, -1.0)`. -/
def expm1fTable (T : ExpTables) (mode : RoundingMode) (x : FloatBits) : FloatBits :=
  let (x_hi, x) := roundingReduction 7 mode x
  let xd := convert double mode x
  let x_hi := x_hi + (104 <<< 7 : Nat)
  let exp_hi := T.expM1 (x_hi >>> (7 : Nat)).toNat
  let exp_mid := T.expM2 (x_hi % 2 ^ 7).toNat
  let exp_hi_mid := mul mode exp_hi exp_mid
  let exp_lo := polyeval mode xd [double.lit 1 0, double.lit 0x1ffffffffff777 (-53),
    double.lit 0x1000000000071c (-53), double.lit 0x1555566668e5e7 (-55),
    double.lit 0x155555555ef243 (-57)]
  convert float mode (multiplyAdd mode exp_hi_mid exp_lo (double.lit 1 0).neg)

/-- Lines 67-135 of the `expm1f` of `unnamed/part_005`, where the inputs that the special cases do
    not return arrive: `|x| < 2^-4` and the table path. -/
def expm1fReduced (T : ExpTables) (mode : RoundingMode) (x : FloatBits) : FloatBits :=
  let x_abs := x.uintval &&& 0x7fffffff
  -- |x| < 2^-4
  if x_abs < 0x3d800000 then
    -- |x| < 2^-25
    if x_abs < 0x33000000 then
      -- x = -0.0f
      if x.uintval = 0x80000000 then x
      else multiplyAdd mode x x x
    else
      let xd := convert double mode x
      let xsq := mul mode xd xd
      let r := polyeval mode xd [double.lit 1 (-1), double.lit 0x155555555557dd (-55),
        double.lit 0x155555555552fa (-57), double.lit 0x1111110fcd58b7 (-59),
        double.lit 0x16c16c1717660b (-62), double.lit 0x1a0241f0006d62 (-65),
        double.lit 0x1a01e3f8d3c06 (-64)]
      convert float mode (multiplyAdd mode r xsq xd)
  else expm1fTable T mode x

/-- `expm1f(x)` of `unnamed/part_005`: the result and the environment after the call. -/
def expm1f (T : ExpTables) (env : FEnv) (x : FloatBits) : FloatBits × FEnv :=
  let mode := env.round
  let x_u := x.uintval
  let x_abs := x_u &&& 0x7fffffff
  -- Exceptional value
  if x_u = 0x3e35bec5 then
    if mode = .toNearest ∨ mode = .upward then (float.lit 0x18dbe64 (-27), env)
    else (float.lit 0x18dbe62 (-27), env)
  -- When |x| > 25*log(2), or nan
  else if 0x418aa123 ≤ x_abs then
    -- x < log(2^-25)
    if x.getSign then
      if x.isInf then ((float.lit 1 0).neg, env)
      else if x.isNan then (x, env)
      else if mode = .upward ∨ mode = .towardZero then ((float.lit 0x1fffffe (-25)).neg, env)
      else ((float.lit 1 0).neg, env)
    -- x >= 89 or nan
    else if 0x42b20000 ≤ x.uintval then
      if x.uintval < 0x7f800000 then
        if mode = .downward ∨ mode = .towardZero then (maxNormal float, env)
        else (add mode x (inf float false), { env with errno := ERANGE })
      else (add mode x (inf float false), env)
    else (expm1fReduced T mode x, env)
  else (expm1fReduced T mode x, env)

end Part005

end LlvmLibc.Math
