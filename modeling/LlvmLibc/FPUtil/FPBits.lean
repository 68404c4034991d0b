import LlvmLibc.FPUtil.Rounding

/-! The bit-level view of a value of a binary format (`FPBits<T>`, §4.1).

A `float` or a `double` of the program is its bit pattern: an `FPBits F` holds the unsigned integer
`uintval()` below `2^bitWidth`, read as a sign bit, an exponent field of `exponentWidth` bits and a
mantissa field of `mantissaWidth` bits. `toFPValue` decodes a pattern into the datum it denotes and
`encode` writes back the data that rounding produces. Decoding an encoded datum gives back its value
(`toFPValue_encode`), every finite pattern denotes a value of the format below the overflow threshold
(`finiteValue_toRat`), and the patterns of one sign are ordered as their values
(`toRat_le_toRat`). -/

namespace LlvmLibc.FPUtil

namespace FloatProperties
variable (F : FloatProperties)

/-- The width of a pattern: the sign bit, the exponent field and the mantissa field. -/
def bitWidth : Nat := F.exponentWidth + F.mantissaWidth + 1

theorem two_mul_exponentBias : 2 * F.exponentBias + 2 = 2 ^ F.exponentWidth := by
  have h := F.two_le_exponentWidth
  have : 2 ^ F.exponentWidth = 2 * 2 ^ (F.exponentWidth - 1) := by
    rw [← Nat.pow_succ']; congr 1; omega
  have := Nat.one_le_two_pow (n := F.exponentWidth - 1)
  unfold exponentBias
  omega

theorem four_le_two_pow_exponentWidth : 4 ≤ 2 ^ F.exponentWidth := by
  have := F.two_mul_exponentBias
  have := F.one_le_exponentBias
  omega

end FloatProperties

/-- `FPBits<T>`: a bit pattern of the format `F`, `uintval()` read as an unsigned integer. -/
structure FPBits (F : FloatProperties) where
  uintval : Nat
  uintval_lt : uintval < 2 ^ F.bitWidth
deriving DecidableEq, Repr

namespace FPBits

/-- The pattern of `n` cut to the width of `F`, as storing an integer into `bits` does. -/
def ofNat (F : FloatProperties) (n : Nat) : FPBits F :=
  ⟨n % 2 ^ F.bitWidth, Nat.mod_lt _ (Nat.two_pow_pos _)⟩

/-- The pattern with sign `s`, exponent field `E` and mantissa field `M`. -/
def build (F : FloatProperties) (s : Bool) (E M : Nat) : FPBits F :=
  ofNat F (s.toNat * 2 ^ (F.exponentWidth + F.mantissaWidth) + E * 2 ^ F.mantissaWidth + M)

variable {F : FloatProperties} (x : FPBits F)

/-- `get_sign()`. -/
def getSign : Bool := x.uintval >>> (F.exponentWidth + F.mantissaWidth) == 1

/-- `get_unbiased_exponent()`: the exponent field as it is stored, bias included (the source's name
    notwithstanding). -/
def getUnbiasedExponent : Nat := (x.uintval >>> F.mantissaWidth) % 2 ^ F.exponentWidth

/-- `get_mantissa()`. -/
def getMantissa : Nat := x.uintval % 2 ^ F.mantissaWidth

/-- `is_inf()`. -/
def isInf : Bool := x.getUnbiasedExponent == 2 ^ F.exponentWidth - 1 && x.getMantissa == 0

/-- `is_nan()`. -/
def isNan : Bool := x.getUnbiasedExponent == 2 ^ F.exponentWidth - 1 && x.getMantissa != 0

/-- A signaling NaN: a NaN whose quiet bit, the leading bit of the mantissa field, is clear.
    Arithmetic on one raises `FE_INVALID`, which the model of arithmetic does not track. -/
def isSignalingNan : Bool := x.isNan && decide (x.getMantissa < 2 ^ (F.mantissaWidth - 1))

/-- `is_inf_or_nan()`. -/
def isInfOrNan : Bool := x.getUnbiasedExponent == 2 ^ F.exponentWidth - 1

/-- The pattern with the sign bit cleared, `x_u & 0x7fff'ffff` for a `float`. -/
def abs : FPBits F := build F false x.getUnbiasedExponent x.getMantissa

/-- The datum the pattern denotes: an all-ones exponent field for the infinities and NaNs, a zero
    one for the zeros and subnormals at the least quantum, and otherwise the implicit leading bit. -/
def toFPValue : FPValue :=
  if x.getUnbiasedExponent = 2 ^ F.exponentWidth - 1 then
    if x.getMantissa = 0 then .inf x.getSign else .nan
  else if x.getUnbiasedExponent = 0 then .finite x.getSign x.getMantissa F.minQuantum
  else .finite x.getSign (x.getMantissa + 2 ^ F.mantissaWidth)
    (x.getUnbiasedExponent + F.minQuantum - 1)

/-- The value of a finite pattern (`0` for the infinities and NaNs). -/
def toRat : ℚ := x.toFPValue.toRat

/-- `-x`: the pattern with the sign bit flipped. -/
def neg : FPBits F := build F (!x.getSign) x.getUnbiasedExponent x.getMantissa

/-- `x` with the quiet bit, the leading bit of the mantissa field, set: the NaN an operation
    returns for a NaN operand `x`. -/
def quiet : FPBits F :=
  build F x.getSign x.getUnbiasedExponent (x.getMantissa ||| 2 ^ (F.mantissaWidth - 1))

variable (F)

/-- The zero of sign `s`. -/
def zero (s : Bool) : FPBits F := build F s 0 0

/-- `FPBits::inf()` (`neg_inf()` for `s = true`). -/
def inf (s : Bool) : FPBits F := build F s (2 ^ F.exponentWidth - 1) 0

/-- `build_nan(v)`. -/
def buildNan (v : Nat) : FPBits F := build F false (2 ^ F.exponentWidth - 1) v

/-- The quiet NaN an invalid operation returns. -/
def defaultNaN : FPBits F := buildNan F (2 ^ (F.mantissaWidth - 1))

/-- `MAX_NORMAL`. -/
def maxNormal : FPBits F := build F false (2 ^ F.exponentWidth - 2) (2 ^ F.mantissaWidth - 1)

/-- `MIN_SUBNORMAL`. -/
def minSubnormal : FPBits F := build F false 0 1

end FPBits

/-- The pattern of a datum as rounding produces it: the infinities, the default NaN, and for a
    finite `m * 2^q` the biased exponent `q - minQuantum` above `m`, so that the leading bit of a
    normal `m` lands in the exponent field as its implicit bit (and a mantissa carried to
    `2^(mantissaWidth + 1)` moves to the next exponent); a zero keeps a zero exponent field. -/
def FloatProperties.encode (F : FloatProperties) : FPValue → FPBits F
  | .nan => FPBits.defaultNaN F
  | .inf s => FPBits.inf F s
  | .finite s m q => FPBits.ofNat F (s.toNat * 2 ^ (F.exponentWidth + F.mantissaWidth) +
      if m = 0 then 0 else (q - F.minQuantum).toNat * 2 ^ F.mantissaWidth + m)

/-! ### Fields -/

namespace FPBits
variable {F : FloatProperties}

theorem mul_two_pow_add_div {a b k : Nat} (hb : b < 2 ^ k) : (a * 2 ^ k + b) / 2 ^ k = a := by
  rw [Nat.add_comm, Nat.add_mul_div_right _ _ (Nat.two_pow_pos k), Nat.div_eq_of_lt hb, Nat.zero_add]

theorem mul_two_pow_add_mod {a b k : Nat} (hb : b < 2 ^ k) : (a * 2 ^ k + b) % 2 ^ k = b := by
  rw [Nat.add_comm, Nat.add_mul_mod_self_right, Nat.mod_eq_of_lt hb]

section Build
variable (s : Bool) {E M : Nat} (hE : E < 2 ^ F.exponentWidth) (hM : M < 2 ^ F.mantissaWidth)
include hE hM

theorem fields_lt : E * 2 ^ F.mantissaWidth + M < 2 ^ (F.exponentWidth + F.mantissaWidth) := by
  rw [Nat.pow_add]
  calc E * 2 ^ F.mantissaWidth + M < (E + 1) * 2 ^ F.mantissaWidth := by
        rw [Nat.add_mul, Nat.one_mul]; omega
    _ ≤ 2 ^ F.exponentWidth * 2 ^ F.mantissaWidth := Nat.mul_le_mul_right _ hE

theorem build_uintval : (build F s E M).uintval =
    s.toNat * 2 ^ (F.exponentWidth + F.mantissaWidth) + E * 2 ^ F.mantissaWidth + M := by
  have := fields_lt hE hM
  apply Nat.mod_eq_of_lt
  rw [FloatProperties.bitWidth, Nat.pow_succ]
  cases s <;> simp only [Bool.toNat_false, Bool.toNat_true] <;> omega

theorem build_uintval_eq : (build F s E M).uintval =
    (s.toNat * 2 ^ F.exponentWidth + E) * 2 ^ F.mantissaWidth + M := by
  rw [build_uintval s hE hM, Nat.pow_add]; ring

@[simp] theorem getSign_build : (build F s E M).getSign = s := by
  have := fields_lt hE hM
  rw [getSign, Nat.shiftRight_eq_div_pow, build_uintval s hE hM, Nat.add_assoc,
    mul_two_pow_add_div this]
  cases s <;> rfl

@[simp] theorem getUnbiasedExponent_build : (build F s E M).getUnbiasedExponent = E := by
  rw [getUnbiasedExponent, Nat.shiftRight_eq_div_pow, build_uintval_eq s hE hM,
    mul_two_pow_add_div hM, Nat.add_comm, Nat.add_mul_mod_self_right, Nat.mod_eq_of_lt hE]

@[simp] theorem getMantissa_build : (build F s E M).getMantissa = M := by
  rw [getMantissa, build_uintval_eq s hE hM, mul_two_pow_add_mod hM]

end Build

variable (x : FPBits F)

theorem getUnbiasedExponent_lt : x.getUnbiasedExponent < 2 ^ F.exponentWidth :=
  Nat.mod_lt _ (Nat.two_pow_pos _)

theorem getMantissa_lt : x.getMantissa < 2 ^ F.mantissaWidth := Nat.mod_lt _ (Nat.two_pow_pos _)

theorem getSign_toNat : x.getSign.toNat = x.uintval / 2 ^ (F.exponentWidth + F.mantissaWidth) := by
  have h := x.uintval_lt
  rw [FloatProperties.bitWidth, Nat.pow_succ] at h
  have : x.uintval / 2 ^ (F.exponentWidth + F.mantissaWidth) < 2 := Nat.div_lt_of_lt_mul h
  rw [getSign, Nat.shiftRight_eq_div_pow]
  rcases Nat.le_one_iff_eq_zero_or_eq_one.mp (Nat.lt_succ_iff.mp this) with h0 | h1 <;> simp [*]

/-- A pattern is its sign bit, exponent field and mantissa field. -/
theorem uintval_eq : x.uintval = x.getSign.toNat * 2 ^ (F.exponentWidth + F.mantissaWidth) +
    x.getUnbiasedExponent * 2 ^ F.mantissaWidth + x.getMantissa := by
  have h1 := Nat.div_add_mod x.uintval (2 ^ F.mantissaWidth)
  have h2 := Nat.div_add_mod (x.uintval / 2 ^ F.mantissaWidth) (2 ^ F.exponentWidth)
  rw [Nat.div_div_eq_div_mul, ← Nat.pow_add, Nat.add_comm F.mantissaWidth] at h2
  have h3 := congrArg (· * 2 ^ F.mantissaWidth) h2
  simp only at h3
  rw [getSign_toNat, getUnbiasedExponent, getMantissa, Nat.shiftRight_eq_div_pow, Nat.pow_add]
  rw [Nat.pow_add] at h3
  nlinarith

/-- Rebuilding a pattern from its fields gives it back. -/
theorem build_fields : build F x.getSign x.getUnbiasedExponent x.getMantissa = x := by
  cases x with
  | mk u hu =>
    have := uintval_eq ⟨u, hu⟩
    simp only [build, ofNat, FPBits.mk.injEq]
    rw [← this]
    exact Nat.mod_eq_of_lt hu


/-! ### Decoding and encoding -/

section Decode
variable (s : Bool) {E M : Nat}

theorem toFPValue_build_zero (hM : M < 2 ^ F.mantissaWidth) :
    (build F s 0 M).toFPValue = .finite s M F.minQuantum := by
  have h0 : (0 : Nat) < 2 ^ F.exponentWidth := Nat.two_pow_pos _
  have := F.four_le_two_pow_exponentWidth
  rw [toFPValue, getUnbiasedExponent_build s h0 hM, getMantissa_build s h0 hM,
    getSign_build s h0 hM, if_neg (by omega), if_pos rfl]

theorem toFPValue_build_normal (hE0 : E ≠ 0) (hE : E < 2 ^ F.exponentWidth - 1)
    (hM : M < 2 ^ F.mantissaWidth) :
    (build F s E M).toFPValue = .finite s (M + 2 ^ F.mantissaWidth) (E + F.minQuantum - 1) := by
  have hE' : E < 2 ^ F.exponentWidth := by omega
  rw [toFPValue, getUnbiasedExponent_build s hE' hM, getMantissa_build s hE' hM,
    getSign_build s hE' hM, if_neg (by omega), if_neg hE0]

theorem toFPValue_inf : (inf F s).toFPValue = .inf s := by
  have hE : 2 ^ F.exponentWidth - 1 < 2 ^ F.exponentWidth := Nat.sub_lt (Nat.two_pow_pos _) one_pos
  have hM : 0 < 2 ^ F.mantissaWidth := Nat.two_pow_pos _
  rw [inf, toFPValue, getUnbiasedExponent_build s hE hM, getMantissa_build s hE hM,
    getSign_build s hE hM, if_pos rfl, if_pos rfl]

end Decode

/-- Decoding the pattern of an encodable finite datum gives back its sign and its value. -/
theorem toFPValue_encode (s : Bool) {m : Nat} {q : Int} (h : F.Encodable m q) :
    ∃ m' q', (F.encode (.finite s m q)).toFPValue = .finite s m' q' ∧
      (m' : ℚ) * 2 ^ q' = m * 2 ^ q := by
  have hb := F.two_mul_exponentBias
  have hA : 2 ^ (F.mantissaWidth + 1) = 2 * 2 ^ F.mantissaWidth := Nat.pow_succ'
  have hmin := h.minQuantum_le
  rcases Nat.eq_zero_or_pos m with rfl | hm0
  · refine ⟨0, F.minQuantum, ?_, by simp⟩
    have : F.encode (.finite s 0 q) = build F s 0 0 := by simp [FloatProperties.encode, build]
    rw [this, toFPValue_build_zero s (Nat.two_pow_pos _)]
  by_cases hsub : m < 2 ^ F.mantissaWidth
  · have hq : q = F.minQuantum := by
      rcases h.normal with h0 | hq | hn
      · omega
      · exact hq
      · omega
    subst hq
    refine ⟨m, F.minQuantum, ?_, rfl⟩
    have : F.encode (.finite s m F.minQuantum) = build F s 0 m := by
      simp [FloatProperties.encode, build, hm0.ne']
    rw [this, toFPValue_build_zero s hsub]
  have hlog := h.le_maxExponent hm0.ne'
  unfold FloatProperties.maxExponent at hlog
  unfold FloatProperties.minQuantum at hmin
  rcases h.le_two_pow.lt_or_eq with hlt | rfl
  · rw [log2_eq_of_le_of_lt (not_lt.mp hsub) hlt] at hlog
    refine ⟨m, q, ?_, rfl⟩
    have : F.encode (.finite s m q) =
        build F s ((q - F.minQuantum).toNat + 1) (m - 2 ^ F.mantissaWidth) := by
      simp only [FloatProperties.encode, build, if_neg hm0.ne']
      congr 1
      rw [Nat.add_mul, Nat.one_mul]
      omega
    rw [this, toFPValue_build_normal s (by omega) (by unfold FloatProperties.minQuantum; omega)
      (by omega)]
    congr 1
    · omega
    · unfold FloatProperties.minQuantum; omega
  · rw [Nat.log2_two_pow] at hlog
    refine ⟨2 ^ F.mantissaWidth, q + 1, ?_, ?_⟩
    · have : F.encode (.finite s (2 ^ (F.mantissaWidth + 1)) q) =
          build F s ((q - F.minQuantum).toNat + 2) 0 := by
        simp only [FloatProperties.encode, build, if_neg hm0.ne']
        congr 1
        rw [Nat.add_mul, hA]
        omega
      rw [this, toFPValue_build_normal s (by omega) (by unfold FloatProperties.minQuantum; omega)
        (Nat.two_pow_pos _)]
      congr 1
      · omega
      · unfold FloatProperties.minQuantum; omega
    · push_cast
      rw [two_zpow_add, pow_succ]
      ring


/-! ### Values of patterns -/

variable (x : FPBits F)

/-- A pattern decodes to a NaN, an infinity or an encodable finite datum, each of the pattern's
    sign. -/
theorem toFPValue_cases : x.toFPValue = .nan ∨ x.toFPValue = .inf x.getSign ∨
    ∃ m e, x.toFPValue = .finite x.getSign m e ∧ F.Encodable m e := by
  have hb := F.two_mul_exponentBias
  have hM := x.getMantissa_lt
  have hA : 2 ^ (F.mantissaWidth + 1) = 2 * 2 ^ F.mantissaWidth := Nat.pow_succ'
  have := x.getUnbiasedExponent_lt
  unfold toFPValue
  split_ifs with hE hM0 hE0
  · exact .inr (.inl rfl)
  · exact .inl rfl
  · refine .inr (.inr ⟨x.getMantissa, F.minQuantum, rfl, le_rfl, by omega, .inr (.inl rfl),
      fun hm => ?_⟩)
    have : x.getMantissa.log2 < F.mantissaWidth := (Nat.log2_lt hm).mpr hM
    unfold FloatProperties.minQuantum FloatProperties.maxExponent
    omega
  · have hle : x.getMantissa + 2 ^ F.mantissaWidth ≤ 2 ^ (F.mantissaWidth + 1) := by omega
    refine .inr (.inr ⟨x.getMantissa + 2 ^ F.mantissaWidth,
      x.getUnbiasedExponent + F.minQuantum - 1, rfl, by omega, hle, .inr (.inr (by omega)),
      fun _ => ?_⟩)
    have : (x.getMantissa + 2 ^ F.mantissaWidth).log2 = F.mantissaWidth :=
      log2_eq_of_le_of_lt (by omega) (by omega)
    unfold FloatProperties.minQuantum FloatProperties.maxExponent
    omega

theorem toFPValue_of_isInfOrNan_false (h : x.isInfOrNan = false) :
    ∃ m e, x.toFPValue = .finite x.getSign m e ∧ F.Encodable m e := by
  simp only [isInfOrNan, beq_eq_false_iff_ne] at h
  rcases x.toFPValue_cases with h' | h' | h'
  · rw [toFPValue, if_neg h] at h'; split_ifs at h'
  · rw [toFPValue, if_neg h] at h'; split_ifs at h'
  · exact h'

/-- A pattern decodes to a NaN exactly when it is a NaN. -/
theorem toFPValue_eq_nan_iff : x.toFPValue = .nan ↔ x.isNan = true := by
  simp only [toFPValue, isNan, Bool.and_eq_true, beq_iff_eq, bne_iff_ne, ne_eq]
  split_ifs <;> simp_all

/-- Encoding the datum of a pattern that is not a NaN gives the pattern back. -/
theorem encode_toFPValue (h : x.isNan = false) : F.encode x.toFPValue = x := by
  conv_rhs => rw [← x.build_fields]
  unfold toFPValue
  split_ifs with h1 h2 h3
  · rw [h1, h2]; rfl
  · simp [isNan, h1, h2] at h
  · -- a zero or a subnormal: the exponent field stays `0`
    rw [h3]
    by_cases hM0 : x.getMantissa = 0 <;> simp [FloatProperties.encode, build, hM0]
  · -- a normal pattern: the implicit bit moves back into the exponent field
    obtain ⟨k, hk⟩ : ∃ k, x.getUnbiasedExponent = k + 1 :=
      ⟨_, (Nat.succ_pred_eq_of_ne_zero h3).symm⟩
    have hM : x.getMantissa + 2 ^ F.mantissaWidth ≠ 0 := by positivity
    simp only [FloatProperties.encode, build, if_neg hM, hk]
    congr 1
    have : ((k + 1 : Nat) + F.minQuantum - 1 - F.minQuantum : ℤ).toNat = k := by omega
    rw [this]
    ring

/-- The `FPBits` view loses nothing: every pattern, NaN payloads and signed zeros included, is
    rebuilt from its sign, exponent and mantissa fields, and every pattern but a NaN is the encoding
    of the datum it denotes. -/
theorem bits_round_trip : build F x.getSign x.getUnbiasedExponent x.getMantissa = x ∧
    (x.isNan = false → F.encode x.toFPValue = x) :=
  ⟨x.build_fields, x.encode_toFPValue⟩

/-- Setting the quiet bit keeps a NaN a NaN. -/
theorem isNan_quiet (h : x.isNan = true) : x.quiet.isNan = true := by
  simp only [isNan, Bool.and_eq_true, beq_iff_eq, bne_iff_ne, ne_eq] at h ⊢
  have hq : 2 ^ (F.mantissaWidth - 1) < 2 ^ F.mantissaWidth :=
    Nat.pow_lt_pow_right (by norm_num) (by have := F.mantissaWidth_pos; omega)
  have hM := Nat.or_lt_two_pow x.getMantissa_lt hq
  have hbit : (x.getMantissa ||| 2 ^ (F.mantissaWidth - 1)).testBit (F.mantissaWidth - 1) = true := by
    simp [Nat.testBit_two_pow_self]
  rw [quiet, getUnbiasedExponent_build _ x.getUnbiasedExponent_lt hM,
    getMantissa_build _ x.getUnbiasedExponent_lt hM]
  exact ⟨h.1, fun h0 => by rw [h0, Nat.zero_testBit] at hbit; exact Bool.false_ne_true hbit⟩

/-- A finite pattern denotes a finite value of the format. -/
theorem finiteValue_toRat (h : x.isInfOrNan = false) : F.FiniteValue x.toRat := by
  obtain ⟨m, e, hx, he⟩ := x.toFPValue_of_isInfOrNan_false h
  rw [toRat, hx]
  exact he.finiteValue _

/-- The value of a finite pattern from its fields. -/
theorem toRat_eq (h : x.isInfOrNan = false) : x.toRat = (if x.getSign then -1 else 1) *
    if x.getUnbiasedExponent = 0 then (x.getMantissa : ℚ) * 2 ^ F.minQuantum
    else ((x.getMantissa + 2 ^ F.mantissaWidth : Nat) : ℚ) *
      2 ^ ((x.getUnbiasedExponent : Int) + F.minQuantum - 1) := by
  simp only [isInfOrNan, beq_eq_false_iff_ne] at h
  simp only [toRat, toFPValue, if_neg h]
  cases x.getSign <;> split_ifs <;> simp_all [FPValue.toRat]

theorem getSign_abs : x.abs.getSign = false :=
  getSign_build _ x.getUnbiasedExponent_lt x.getMantissa_lt

theorem getUnbiasedExponent_abs : x.abs.getUnbiasedExponent = x.getUnbiasedExponent :=
  getUnbiasedExponent_build _ x.getUnbiasedExponent_lt x.getMantissa_lt

theorem getMantissa_abs : x.abs.getMantissa = x.getMantissa :=
  getMantissa_build _ x.getUnbiasedExponent_lt x.getMantissa_lt

theorem isInfOrNan_abs : x.abs.isInfOrNan = x.isInfOrNan := by
  simp only [isInfOrNan, getUnbiasedExponent_abs]

/-- Clearing the sign bit keeps the value's magnitude. -/
theorem toRat_eq_abs (h : x.isInfOrNan = false) :
    x.toRat = if x.getSign then -x.abs.toRat else x.abs.toRat := by
  rw [toRat_eq x h, toRat_eq x.abs (by rwa [isInfOrNan_abs]), getSign_abs, getUnbiasedExponent_abs,
    getMantissa_abs]
  cases x.getSign <;> by_cases hE : x.getUnbiasedExponent = 0 <;> simp [hE]

@[simp] theorem getSign_neg : x.neg.getSign = !x.getSign :=
  getSign_build _ x.getUnbiasedExponent_lt x.getMantissa_lt

@[simp] theorem getUnbiasedExponent_neg : x.neg.getUnbiasedExponent = x.getUnbiasedExponent :=
  getUnbiasedExponent_build _ x.getUnbiasedExponent_lt x.getMantissa_lt

@[simp] theorem getMantissa_neg : x.neg.getMantissa = x.getMantissa :=
  getMantissa_build _ x.getUnbiasedExponent_lt x.getMantissa_lt

/-- Flipping the sign bit twice gives the pattern back. -/
theorem neg_involutive : Function.Involutive (neg : FPBits F → FPBits F) := fun x => by
  show build F (!x.neg.getSign) x.neg.getUnbiasedExponent x.neg.getMantissa = x
  rw [getSign_neg, getUnbiasedExponent_neg, getMantissa_neg, Bool.not_not, build_fields]

theorem abs_neg_eq_abs : x.neg.abs = x.abs := by
  simp only [abs, getUnbiasedExponent_neg, getMantissa_neg]

theorem abs_uintval : x.abs.uintval = x.uintval % 2 ^ (F.exponentWidth + F.mantissaWidth) := by
  have h := fields_lt x.getUnbiasedExponent_lt x.getMantissa_lt
  rw [abs, build_uintval _ x.getUnbiasedExponent_lt x.getMantissa_lt, x.uintval_eq, Nat.add_assoc,
    Nat.add_assoc, Nat.add_comm (x.getSign.toNat * _), Nat.add_mul_mod_self_right,
    Nat.mod_eq_of_lt h, Bool.toNat_false, Nat.zero_mul, Nat.zero_add]

/-- `-x` has the magnitude bits of `x`. -/
theorem neg_uintval_mod :
    x.neg.uintval % 2 ^ (F.exponentWidth + F.mantissaWidth) =
      x.uintval % 2 ^ (F.exponentWidth + F.mantissaWidth) := by
  rw [← abs_uintval, ← abs_uintval, abs_neg_eq_abs]


/-! ### Order -/

section Order
variable {x y : FPBits F}

theorem uintval_div_of_sign_false (hs : x.getSign = false) :
    x.uintval / 2 ^ F.mantissaWidth = x.getUnbiasedExponent := by
  rw [x.uintval_eq, hs, Bool.toNat_false, Nat.zero_mul, Nat.zero_add,
    mul_two_pow_add_div x.getMantissa_lt]

/-- A finite pattern of sign `+` lies below the top of the binade its exponent field names. -/
theorem toRat_lt_two_zpow (h : x.isInfOrNan = false) (hs : x.getSign = false) :
    x.toRat < 2 ^ ((x.getUnbiasedExponent : Int) + F.minQuantum + F.mantissaWidth) := by
  have hM : (x.getMantissa : ℚ) < 2 ^ F.mantissaWidth := by exact_mod_cast x.getMantissa_lt
  rw [toRat_eq x h]
  simp only [hs, Bool.false_eq_true, if_false, one_mul]
  split_ifs with hE
  · calc (x.getMantissa : ℚ) * 2 ^ F.minQuantum < 2 ^ F.mantissaWidth * 2 ^ F.minQuantum :=
          mul_lt_mul_of_pos_right hM (two_zpow_pos _)
      _ = _ := by rw [hE, Nat.cast_zero, zero_add, add_comm, two_zpow_add, two_zpow_natCast]
  · have : ((x.getMantissa + 2 ^ F.mantissaWidth : Nat) : ℚ) < 2 ^ (F.mantissaWidth + 1) := by
      push_cast; rw [pow_succ]; linarith
    calc _ < (2 : ℚ) ^ (F.mantissaWidth + 1) * 2 ^ ((x.getUnbiasedExponent : Int) + F.minQuantum - 1) :=
          mul_lt_mul_of_pos_right this (two_zpow_pos _)
      _ = _ := by rw [← two_zpow_natCast, ← two_zpow_add]; congr 1; push_cast; ring

/-- A normal pattern of sign `+` lies at or above the bottom of its binade. -/
theorem two_zpow_le_toRat (h : x.isInfOrNan = false) (hs : x.getSign = false)
    (hE : x.getUnbiasedExponent ≠ 0) :
    (2 : ℚ) ^ ((x.getUnbiasedExponent : Int) - 1 + F.minQuantum + F.mantissaWidth) ≤ x.toRat := by
  rw [toRat_eq x h]
  simp only [hs, Bool.false_eq_true, if_false, one_mul, if_neg hE]
  calc (2 : ℚ) ^ ((x.getUnbiasedExponent : Int) - 1 + F.minQuantum + F.mantissaWidth)
        = 2 ^ F.mantissaWidth * 2 ^ ((x.getUnbiasedExponent : Int) + F.minQuantum - 1) := by
          rw [← two_zpow_natCast, ← two_zpow_add]; congr 1; ring
    _ ≤ _ := mul_le_mul_of_nonneg_right (by push_cast; linarith [x.getMantissa.cast_nonneg (α := ℚ)])
          (two_zpow_pos _).le

theorem toRat_nonneg (h : x.isInfOrNan = false) (hs : x.getSign = false) : 0 ≤ x.toRat := by
  rw [toRat_eq x h]
  simp only [hs, Bool.false_eq_true, if_false, one_mul]
  split_ifs <;> positivity

theorem toRat_nonpos (h : x.isInfOrNan = false) (hs : x.getSign = true) : x.toRat ≤ 0 := by
  rw [toRat_eq x h]
  simp only [hs, if_true, neg_one_mul, neg_nonpos]
  split_ifs <;> positivity

/-- The magnitude of a finite value is the value of the pattern with the sign bit cleared. -/
theorem abs_toRat (h : x.isInfOrNan = false) : |x.toRat| = x.abs.toRat := by
  have := toRat_nonneg (x := x.abs) (by rwa [isInfOrNan_abs]) (getSign_abs x)
  rw [toRat_eq_abs x h]
  split_ifs
  · rw [abs_neg, abs_of_nonneg this]
  · rw [abs_of_nonneg this]

/-- A finite pattern with a nonzero exponent field has a nonzero value. -/
theorem toRat_ne_zero (h : x.isInfOrNan = false) (hE : x.getUnbiasedExponent ≠ 0) :
    x.toRat ≠ 0 := by
  have hle := two_zpow_le_toRat (x := x.abs) (by rwa [isInfOrNan_abs]) (getSign_abs x)
    (by rwa [getUnbiasedExponent_abs])
  have hpos : 0 < x.abs.toRat := lt_of_lt_of_le (two_zpow_pos _) hle
  rw [toRat_eq_abs x h]
  split_ifs
  · exact neg_ne_zero.mpr hpos.ne'
  · exact hpos.ne'

/-- Patterns of sign `+` are ordered as their values, up to the largest finite one. -/
theorem toRat_le_toRat (hx : x.getSign = false) (hy : y.getSign = false)
    (hyf : y.isInfOrNan = false) (h : x.uintval ≤ y.uintval) : x.toRat ≤ y.toRat := by
  have hE : x.getUnbiasedExponent ≤ y.getUnbiasedExponent := by
    rw [← uintval_div_of_sign_false hx, ← uintval_div_of_sign_false hy]
    exact Nat.div_le_div_right h
  have hxf : x.isInfOrNan = false := by
    simp only [isInfOrNan, beq_eq_false_iff_ne] at hyf ⊢
    have := y.getUnbiasedExponent_lt
    omega
  rcases hE.lt_or_eq with hlt | heq
  · refine le_of_lt ?_
    calc x.toRat < 2 ^ ((x.getUnbiasedExponent : Int) + F.minQuantum + F.mantissaWidth) :=
            toRat_lt_two_zpow hxf hx
        _ ≤ 2 ^ ((y.getUnbiasedExponent : Int) - 1 + F.minQuantum + F.mantissaWidth) :=
          two_zpow_le (by omega)
        _ ≤ y.toRat := two_zpow_le_toRat hyf hy (by omega)
  · have hM : x.getMantissa ≤ y.getMantissa := by
      have hxu := x.uintval_eq
      have hyu := y.uintval_eq
      rw [hx, heq] at hxu
      rw [hy] at hyu
      omega
    have hM' : (x.getMantissa : ℚ) ≤ y.getMantissa := by exact_mod_cast hM
    rw [toRat_eq x hxf, toRat_eq y hyf, heq]
    simp only [hx, hy, Bool.false_eq_true, if_false, one_mul]
    split_ifs
    · exact mul_le_mul_of_nonneg_right hM' (two_zpow_pos _).le
    · exact mul_le_mul_of_nonneg_right (by push_cast; linarith) (two_zpow_pos _).le

end Order

end FPBits

end LlvmLibc.FPUtil
