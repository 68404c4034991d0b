import LlvmLibc.Math.Common

/-! Single-precision `2^x` (`src/math/generic/exp2f.cpp`).

`exp2f` returns six exceptional inputs from a table in the rounding modes the table covers, then the
inputs with `|x| ≥ 128`, `|x| < 2^-25` or NaN directly (setting `errno` for an overflow or an
underflow); every other input goes through `exp2fTable`: the reduction `x = (hi + mid) + lo` with
`hi + mid = x_hi * 2^-6`, `2^hi` assembled in the exponent field of a `double`, `EXP_M[mid]`, and a
polynomial in `lo`. -/

namespace LlvmLibc.Math
open FPUtil FPUtil.FPBits FPUtil.FloatProperties

/-- `EXP_M`: `2^(m * 2^-6)` for `m = 0, ..., 63`. -/
def expM : List DoubleBits := [
  double.lit 0x10000000000000 (-52),
  double.lit 0x102c9a3e778061 (-52),
  double.lit 0x1059b0d3158574 (-52),
  double.lit 0x10874518759bc8 (-52),
  double.lit 0x10b5586cf9890f (-52),
  double.lit 0x10e3ec32d3d1a2 (-52),
  double.lit 0x111301d0125b51 (-52),
  double.lit 0x11429aaea92de0 (-52),
  double.lit 0x1172b83c7d517b (-52),
  double.lit 0x11a35beb6fcb75 (-52),
  double.lit 0x11d4873168b9aa (-52),
  double.lit 0x12063b88628cd6 (-52),
  double.lit 0x12387a6e756238 (-52),
  double.lit 0x126b4565e27cdd (-52),
  double.lit 0x129e9df51fdee1 (-52),
  double.lit 0x12d285a6e4030b (-52),
  double.lit 0x1306fe0a31b715 (-52),
  double.lit 0x133c08b26416ff (-52),
  double.lit 0x1371a7373aa9cb (-52),
  double.lit 0x13a7db34e59ff7 (-52),
  double.lit 0x13dea64c123422 (-52),
  double.lit 0x14160a21f72e2a (-52),
  double.lit 0x144e086061892d (-52),
  double.lit 0x1486a2b5c13cd0 (-52),
  double.lit 0x14bfdad5362a27 (-52),
  double.lit 0x14f9b2769d2ca7 (-52),
  double.lit 0x15342b569d4f82 (-52),
  double.lit 0x156f4736b527da (-52),
  double.lit 0x15ab07dd485429 (-52),
  double.lit 0x15e76f15ad2148 (-52),
  double.lit 0x16247eb03a5585 (-52),
  double.lit 0x16623882552225 (-52),
  double.lit 0x16a09e667f3bcd (-52),
  double.lit 0x16dfb23c651a2f (-52),
  double.lit 0x171f75e8ec5f74 (-52),
  double.lit 0x175feb564267c9 (-52),
  double.lit 0x17a11473eb0187 (-52),
  double.lit 0x17e2f336cf4e62 (-52),
  double.lit 0x182589994cce13 (-52),
  double.lit 0x1868d99b4492ed (-52),
  double.lit 0x18ace5422aa0db (-52),
  double.lit 0x18f1ae99157736 (-52),
  double.lit 0x193737b0cdc5e5 (-52),
  double.lit 0x197d829fde4e50 (-52),
  double.lit 0x19c49182a3f090 (-52),
  double.lit 0x1a0c667b5de565 (-52),
  double.lit 0x1a5503b23e255d (-52),
  double.lit 0x1a9e6b5579fdbf (-52),
  double.lit 0x1ae89f995ad3ad (-52),
  double.lit 0x1b33a2b84f15fb (-52),
  double.lit 0x1b7f76f2fb5e47 (-52),
  double.lit 0x1bcc1e904bc1d2 (-52),
  double.lit 0x1c199bdd85529c (-52),
  double.lit 0x1c67f12e57d14b (-52),
  double.lit 0x1cb720dcef9069 (-52),
  double.lit 0x1d072d4a07897c (-52),
  double.lit 0x1d5818dcfba487 (-52),
  double.lit 0x1da9e603db3285 (-52),
  double.lit 0x1dfc97337b9b5f (-52),
  double.lit 0x1e502ee78b3ff6 (-52),
  double.lit 0x1ea4afa2a490da (-52),
  double.lit 0x1efa1bee615a27 (-52),
  double.lit 0x1f50765b6e4540 (-52),
  double.lit 0x1fa7c1819e90d8 (-52)]

/-- The `switch` on the exceptional inputs of `exp2f` (lines 58-85): the result it returns, or
    `none` where it breaks out. -/
def exp2fExceptional (mode : RoundingMode) (x_u : Nat) : Option FloatBits :=
  if x_u = 0x3b429d37 then
    if mode = .toNearest then some (float.lit 0x100870a (-24)) else none
  else if x_u = 0x3c02a9ad then
    if mode = .toNearest then some (float.lit 0x1016b46 (-24)) else none
  else if x_u = 0x3ca66e26 then
    if mode = .toNearest ∨ mode = .upward then some (float.lit 0x103a16a (-24))
    else some (float.lit 0x103a168 (-24))
  else if x_u = 0x3d92a282 then
    if mode = .upward then some (float.lit 0x10d0688 (-24)) else some (float.lit 0x10d0686 (-24))
  else if x_u = 0xbcf3a937 then
    if mode = .toNearest then some (float.lit 0x1f58d62 (-25)) else none
  else if x_u = 0xb8d3d026 then
    if mode = .toNearest then some (float.lit 0x1fff6d2 (-25)) else none
  else none

/-- Lines 139-162 of `exp2f`: the range reduction, `2^hi` built from the exponent field
    `e_hi = hi + EXPONENT_BIAS` (`static_cast<uint64_t>(e_hi) << MANTISSA_WIDTH`), the lookup of
    `EXP_M[x_hi & 0x3f]` (`x_hi` modulo `2^6` in two's complement) and the polynomial; `x_hi >> 6` is
    the arithmetic shift, a division by `2^6` rounded down. -/
def exp2fTable (mode : RoundingMode) (x : FloatBits) : FloatBits :=
  let (x_hi, x) := roundingReduction 6 mode x
  let e_hi := (x_hi >>> (6 : Nat)) + (double.exponentBias : Int)
  let exp_hi : DoubleBits := ofNat double ((e_hi % (2 ^ 64 : Nat)).toNat <<< double.mantissaWidth)
  let exp_hi_mid := mul mode exp_hi (expM.getD (x_hi % 2 ^ 6).toNat (zero double false))
  let xd := convert double mode x
  let exp_lo := polyeval mode xd [double.lit 1 0, double.lit 0x162e42fefa2417 (-53),
    double.lit 0x1ebfbdff82f809 (-55), double.lit 0x1c6b0b92131c47 (-57),
    double.lit 0x13b2ab6fb568a3 (-59)]
  convert float mode (mul mode exp_hi_mid exp_lo)

/-- `exp2f(x)`: the result and the environment after the call. -/
def exp2f (env : FEnv) (x : FloatBits) : FloatBits × FEnv :=
  let mode := env.round
  let x_u := x.uintval
  let x_abs := x_u &&& 0x7fffffff
  match exp2fExceptional mode x_u with
  | some r => (r, env)
  | none =>
    -- When |x| >= 128, |x| < 2^-25, or x is nan
    if 0x43000000 ≤ x_abs ∨ x_abs ≤ 0x32800000 then
      -- |x| < 2^-25
      if x_abs ≤ 0x32800000 then (add mode (float.lit 1 0) x, env)
      -- x >= 128
      else if x.getSign = false then
        if x_u < 0x7f800000 then
          if mode = .downward ∨ mode = .towardZero then (maxNormal float, env)
          else (add mode x (inf float false), { env with errno := ERANGE })
        else (add mode x (inf float false), env)
      -- x < -150
      else if 0xc3160000 ≤ x_u then
        if x.isInf then (zero float false, env)
        else if x.isNan then (x, env)
        else if mode = .upward then (minSubnormal float, env)
        else (zero float false, if x.ne (zero float false) then { env with errno := ERANGE } else env)
      else (exp2fTable mode x, env)
    else (exp2fTable mode x, env)

end LlvmLibc.Math
