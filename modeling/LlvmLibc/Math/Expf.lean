import LlvmLibc.Math.Common

/-! Single-precision `e^x` (`src/math/generic/expf.cpp`).

`expf` checks one exceptional input, then the inputs with `|x| ≥ 89`, `|x| < 2^-25` or NaN, whose
results it returns directly (and where it sets `errno` for an overflow or an underflow); every
other input goes through `expfTable`: the reduction `x = (hi + mid) + lo` with
`hi + mid = x_hi * 2^-7`, the tables `EXP_M1[hi + 104]` and `EXP_M2[mid]`, and a polynomial in
`lo`. -/

namespace LlvmLibc.Math
open FPUtil FPUtil.FPBits FPUtil.FloatProperties

/-- Lines 86-103 of `expf`: the range reduction, the table lookups and the polynomial. `x_hi >> 7`
    is the arithmetic shift, a division by `2^7` rounded down, and `x_hi & 0x7f` is `x_hi` modulo
    `2^7` in two's complement. -/
def expfTable (T : ExpTables) (mode : RoundingMode) (x : FloatBits) : FloatBits :=
  let (x_hi, x) := roundingReduction 7 mode x
  let xd := convert double mode x
  let x_hi := x_hi + (104 <<< 7 : Nat)
  let exp_hi := T.expM1 (x_hi >>> (7 : Nat)).toNat
  let exp_mid := T.expM2 (x_hi % 2 ^ 7).toNat
  let exp_lo := polyeval mode xd [double.lit 1 0, double.lit 0x1ffffffffff777 (-53),
    double.lit 0x1000000000071c (-53), double.lit 0x1555566668e5e7 (-55),
    double.lit 0x155555555ef243 (-57)]
  convert float mode (mul mode (mul mode exp_hi exp_mid) exp_lo)

/-- `expf(x)`: the result and the environment after the call. -/
def expf (T : ExpTables) (env : FEnv) (x : FloatBits) : FloatBits × FEnv :=
  let mode := env.round
  let x_u := x.uintval
  let x_abs := x_u &&& 0x7fffffff
  -- Exceptional values
  if x_u = 0xc236bd8c then
    (sub mode (float.lit 0x1108a58 (-90)) (mul mode x (float.lit 1 (-95))), env)
  -- When |x| >= 89, |x| < 2^-25, or x is nan
  else if 0x42b20000 ≤ x_abs ∨ x_abs ≤ 0x32800000 then
    -- |x| < 2^-25
    if x.getUnbiasedExponent ≤ 101 then (add mode (float.lit 1 0) x, env)
    -- When x < log(2^-150) or nan
    else if 0xc2cff1b5 ≤ x_u then
      if x.isInf then (zero float false, env)
      else if x.isNan then (x, env)
      else if mode = .upward then (minSubnormal float, env)
      else (zero float false, { env with errno := ERANGE })
    -- x >= 89 or nan
    else if x.getSign = false ∧ 0x42b20000 ≤ x_u then
      if x_u < 0x7f800000 then
        if mode = .downward ∨ mode = .towardZero then (maxNormal float, env)
        else (add mode x (inf float false), { env with errno := ERANGE })
      else (add mode x (inf float false), env)
    else (expfTable T mode x, env)
  else (expfTable T mode x, env)

end LlvmLibc.Math
