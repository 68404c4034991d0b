import LlvmLibc.Math.Expf
import LlvmLibc.Math.Exp2f
import LlvmLibc.Math.Expm1f

/-! Where the single-precision exponentials write `errno` (§6).

Each function sets `errno` to `ERANGE` in its early branches and nowhere else: for a finite `x` of
sign `+` from its overflow threshold on (`x ≥ 89`, pattern `0x42b20000`; `x ≥ 128` for `exp2f`,
`0x43000000`) when the mode rounds the overflow to `+inf`, and, in `expf` and `exp2f`, for a finite
`x` of sign `-` from its underflow threshold on (`x ≤ log(2^-150)`, `0xc2cff1b5`; `x ≤ -150`,
`0xc3160000`) when the mode does not round the tiny result up. There the results are `+inf` and
`+0`. An input between a threshold and the true underflow boundary goes through the table path,
which may round to `+0` and leaves `errno` alone: `exp2f(-149.5)` rounded downward.

Each function gets three lemmas, the overflow branch, the underflow branch and "nowhere else", and
their combination `*_env`. The last one inverts the whole branch tree at once: `ite_eq_iff'` turns
`(f env x).2 = env` into conditions on the bit pattern, which `omega` settles per mode. -/

namespace LlvmLibc.Math
open FPUtil FPUtil.FPBits FPUtil.FloatProperties

/-! ### The inputs that set `errno` -/

/-- `x` is a finite pattern of sign `+` from `bound` on, and the mode rounds an overflow to
    `+inf`. -/
def OverflowsAt (bound : Nat) (mode : RoundingMode) (x : FloatBits) : Prop :=
  bound ≤ x.uintval ∧ x.uintval < 0x7f800000 ∧ (mode = .toNearest ∨ mode = .upward)

/-- `x` is a finite pattern of sign `-` from `bound` on, and the mode does not round a tiny
    positive result up to the least subnormal. -/
def UnderflowsAt (bound : Nat) (mode : RoundingMode) (x : FloatBits) : Prop :=
  bound ≤ x.uintval ∧ x.uintval < 0xff800000 ∧ mode ≠ .upward

instance (bound : Nat) (mode : RoundingMode) (x : FloatBits) :
    Decidable (OverflowsAt bound mode x) :=
  inferInstanceAs (Decidable (_ ∧ _ ∧ _))

instance (bound : Nat) (mode : RoundingMode) (x : FloatBits) :
    Decidable (UnderflowsAt bound mode x) :=
  inferInstanceAs (Decidable (_ ∧ _ ∧ _))

/-- The environment after a call that sets `errno` to `ERANGE`. -/
def FEnv.raise (env : FEnv) : FEnv := { env with errno := ERANGE }

namespace FloatBits
variable {x : FloatBits}

/-- An overflowing input is finite. -/
theorem isInfOrNan_of_overflowsAt {b : Nat} {mode : RoundingMode} (h : OverflowsAt b mode x) :
    x.isInfOrNan = false :=
  isInfOrNan_eq_false (by obtain ⟨-, h, -⟩ := h; omega)

/-- An underflowing input of sign `-` is a nonzero finite value. -/
theorem ne_zero_of_underflowsAt {mode : RoundingMode} (h : UnderflowsAt 0xc3160000 mode x) :
    x.ne (zero float false) = true := by
  obtain ⟨h1, h2, -⟩ := h
  have hx : x.isInfOrNan = false := isInfOrNan_eq_false (by omega)
  have h0 : 0 < 2 ^ float.mantissaWidth := Nat.two_pow_pos _
  have hz : (zero float false).toRat = 0 := by
    rw [zero, toRat, toFPValue_build_zero _ h0]; simp
  have hE : x.getUnbiasedExponent ≠ 0 := by rw [getUnbiasedExponent_eq]; omega
  rw [ne_eq_decide hx (by rw [isInfOrNan_eq]; decide), hz, decide_eq_true_iff]
  exact toRat_ne_zero hx hE

end FloatBits

/-! ### `expf` -/

section Expf
variable (T : ExpTables) (env : FEnv) (x : FloatBits)

theorem expf_of_overflowsAt (h : OverflowsAt 0x42b20000 env.round x) :
    expf T env x = (inf float false, env.raise) := by
  have hx := FloatBits.isInfOrNan_of_overflowsAt h
  obtain ⟨h1, h2, h3⟩ := h
  simp (disch := omega) only [expf, if_pos, if_neg, FloatBits.land_abs,
    FloatBits.getUnbiasedExponent_eq, FloatBits.getSign_eq, decide_eq_false_iff_not]
  rw [if_neg (by rcases h3 with h | h <;> simp [h]), add_inf hx, FEnv.raise]

theorem expf_of_underflowsAt (h : UnderflowsAt 0xc2cff1b5 env.round x) :
    expf T env x = (zero float false, env.raise) := by
  obtain ⟨h1, h2, h3⟩ := h
  simp (disch := omega) only [expf, if_pos, if_neg, FloatBits.land_abs,
    FloatBits.getUnbiasedExponent_eq, FloatBits.isInf_eq, FloatBits.isNan_eq,
    decide_eq_true_eq, h3, if_false]
  rfl

theorem expf_env_of_not (h : ¬(OverflowsAt 0x42b20000 env.round x ∨
    UnderflowsAt 0xc2cff1b5 env.round x)) : (expf T env x).2 = env := by
  have := FloatBits.uintval_lt_two_pow x
  obtain ⟨mode, errno, invalid⟩ := env
  simp only [OverflowsAt, UnderflowsAt] at h
  simp only [expf, apply_ite Prod.snd, ite_self, ite_eq_iff', FEnv.mk.injEq, true_and,
    implies_true, and_true, FloatBits.land_abs, FloatBits.getUnbiasedExponent_eq,
    FloatBits.isInf_eq, FloatBits.isNan_eq, FloatBits.getSign_eq, decide_eq_true_eq,
    decide_eq_false_iff_not, ERANGE]
  generalize x.uintval = a at *
  cases mode <;> simp only [reduceCtorEq, or_false, false_or, or_true, true_or, ne_eq, not_true,
    not_false_eq_true, and_true, and_false, imp_false, true_implies, false_implies, implies_true,
    true_and, not_or, not_and, not_lt] at h ⊢ <;> omega

/-- `expf` sets `errno` exactly on an overflow or an underflow its thresholds catch. -/
theorem expf_env : (expf T env x).2 =
    if OverflowsAt 0x42b20000 env.round x ∨ UnderflowsAt 0xc2cff1b5 env.round x then env.raise
    else env := by
  split_ifs with h
  · rcases h with h | h
    · rw [expf_of_overflowsAt T env x h]
    · rw [expf_of_underflowsAt T env x h]
  · exact expf_env_of_not T env x h

end Expf

/-! ### `exp2f` -/

/-- None of the inputs `exp2f` looks up in its table of exceptional values has a magnitude of
    `2^-3` or more. -/
theorem exp2fExceptional_eq_none (mode : RoundingMode) {x_u : Nat}
    (h : 0x3e000000 ≤ x_u % 0x80000000) : exp2fExceptional mode x_u = none := by
  simp (disch := omega) only [exp2fExceptional, if_neg]

section Exp2f
variable (env : FEnv) (x : FloatBits)

theorem exp2f_of_overflowsAt (h : OverflowsAt 0x43000000 env.round x) :
    exp2f env x = (inf float false, env.raise) := by
  have hx := FloatBits.isInfOrNan_of_overflowsAt h
  obtain ⟨h1, h2, h3⟩ := h
  simp (disch := omega) only [exp2f, exp2fExceptional_eq_none, if_pos, if_neg, FloatBits.land_abs,
    FloatBits.getSign_eq, decide_eq_false_iff_not]
  rw [if_neg (by rcases h3 with h | h <;> simp [h]), add_inf hx, FEnv.raise]

theorem exp2f_of_underflowsAt (h : UnderflowsAt 0xc3160000 env.round x) :
    exp2f env x = (zero float false, env.raise) := by
  have hne := FloatBits.ne_zero_of_underflowsAt h
  obtain ⟨h1, h2, h3⟩ := h
  simp (disch := omega) only [exp2f, exp2fExceptional_eq_none, if_pos, if_neg, FloatBits.land_abs,
    FloatBits.getSign_eq, FloatBits.isInf_eq, FloatBits.isNan_eq, decide_eq_true_eq,
    decide_eq_false_iff_not, h3, hne, if_false, if_true]
  rfl

theorem exp2f_env_of_not (h : ¬(OverflowsAt 0x43000000 env.round x ∨
    UnderflowsAt 0xc3160000 env.round x)) : (exp2f env x).2 = env := by
  have := FloatBits.uintval_lt_two_pow x
  obtain ⟨mode, errno, invalid⟩ := env
  simp only [OverflowsAt, UnderflowsAt] at h
  rcases hE : exp2fExceptional mode x.uintval with _ | r
  · simp only [exp2f, hE, apply_ite Prod.snd, ite_self, ite_eq_iff', FEnv.mk.injEq, true_and,
      implies_true, and_true, FloatBits.land_abs, FloatBits.isInf_eq, FloatBits.isNan_eq,
      FloatBits.getSign_eq, decide_eq_true_eq, decide_eq_false_iff_not, ERANGE]
    generalize x.uintval = a at *
    cases x.ne (zero float false) <;> cases mode <;> simp only [reduceCtorEq, or_false, false_or,
      or_true, true_or, ne_eq, not_true, not_false_eq_true, and_true, and_false, imp_false,
      true_implies, false_implies, implies_true, true_and, not_or, not_and, not_lt,
      Bool.false_eq_true] at h ⊢ <;> omega
  · simp only [exp2f, hE]

/-- `exp2f` sets `errno` exactly on an overflow or an underflow its thresholds catch. -/
theorem exp2f_env : (exp2f env x).2 =
    if OverflowsAt 0x43000000 env.round x ∨ UnderflowsAt 0xc3160000 env.round x then env.raise
    else env := by
  split_ifs with h
  · rcases h with h | h
    · rw [exp2f_of_overflowsAt env x h]
    · rw [exp2f_of_underflowsAt env x h]
  · exact exp2f_env_of_not env x h

end Exp2f

/-! ### `expm1f` -/

section Expm1f
variable (T : ExpTables) (env : FEnv) (x : FloatBits)

theorem Generic.expm1f_of_overflowsAt (h : OverflowsAt 0x42b20000 env.round x) :
    Generic.expm1f T env x = (inf float false, env.raise) := by
  have hx := FloatBits.isInfOrNan_of_overflowsAt h
  obtain ⟨h1, h2, h3⟩ := h
  simp (disch := omega) only [Generic.expm1f, if_pos, if_neg, FloatBits.getSign_eq,
    decide_eq_false_iff_not]
  rw [if_neg (by rcases h3 with h | h <;> simp [h]), add_inf hx, FEnv.raise]

theorem Generic.expm1f_env_of_not (h : ¬OverflowsAt 0x42b20000 env.round x) :
    (Generic.expm1f T env x).2 = env := by
  have := FloatBits.uintval_lt_two_pow x
  obtain ⟨mode, errno, invalid⟩ := env
  simp only [OverflowsAt] at h
  simp only [Generic.expm1f, apply_ite Prod.snd, ite_self, ite_eq_iff', FEnv.mk.injEq, true_and,
    implies_true, and_true, FloatBits.getSign_eq, decide_eq_false_iff_not, ERANGE]
  generalize x.uintval = a at *
  cases mode <;> simp only [reduceCtorEq, or_false, false_or, or_true, true_or, not_true,
    not_false_eq_true, and_true, and_false, imp_false, true_implies, false_implies, implies_true,
    true_and, not_or, not_and, not_lt] at h ⊢ <;> omega

/-- The generic `expm1f` sets `errno` exactly on an overflow its threshold catches. -/
theorem Generic.expm1f_env : (Generic.expm1f T env x).2 =
    if OverflowsAt 0x42b20000 env.round x then env.raise else env := by
  split_ifs with h
  · rw [Generic.expm1f_of_overflowsAt T env x h]
  · exact Generic.expm1f_env_of_not T env x h

theorem Part005.expm1f_of_overflowsAt (h : OverflowsAt 0x42b20000 env.round x) :
    Part005.expm1f T env x = (inf float false, env.raise) := by
  have hx := FloatBits.isInfOrNan_of_overflowsAt h
  obtain ⟨h1, h2, h3⟩ := h
  simp (disch := omega) only [Part005.expm1f, if_pos, if_neg, FloatBits.land_abs,
    FloatBits.getSign_eq, decide_eq_false_iff_not, decide_eq_true_eq]
  rw [if_neg (by rcases h3 with h | h <;> simp [h]), add_inf hx, FEnv.raise]

theorem Part005.expm1f_env_of_not (h : ¬OverflowsAt 0x42b20000 env.round x) :
    (Part005.expm1f T env x).2 = env := by
  have := FloatBits.uintval_lt_two_pow x
  obtain ⟨mode, errno, invalid⟩ := env
  simp only [OverflowsAt] at h
  simp only [Part005.expm1f, apply_ite Prod.snd, ite_self, ite_eq_iff', FEnv.mk.injEq, true_and,
    implies_true, and_true, FloatBits.land_abs, FloatBits.getSign_eq, decide_eq_true_eq, ERANGE]
  generalize x.uintval = a at *
  cases mode <;> simp only [reduceCtorEq, or_false, false_or, or_true, true_or, not_true,
    not_false_eq_true, and_true, and_false, imp_false, true_implies, false_implies, implies_true,
    true_and, not_or, not_and, not_lt, not_le] at h ⊢ <;> omega

/-- The `expm1f` of `unnamed/part_005` sets `errno` exactly on an overflow its threshold
    catches. -/
theorem Part005.expm1f_env : (Part005.expm1f T env x).2 =
    if OverflowsAt 0x42b20000 env.round x then env.raise else env := by
  split_ifs with h
  · rw [Part005.expm1f_of_overflowsAt T env x h]
  · exact Part005.expm1f_env_of_not T env x h

end Expm1f

/-! ### NaN arguments -/

section Nan
variable (T : ExpTables) (env : FEnv) (x : FloatBits)

/-- A NaN of sign `+` comes back from `x + inf`, one of sign `-` as it is. -/
theorem expf_of_isNan (h : x.isNan = true) :
    expf T env x = (if x.getSign then x else add env.round x (inf float false), env) := by
  rw [FloatBits.isNan_eq, decide_eq_true_eq] at h
  have := FloatBits.uintval_lt_two_pow x
  rcases lt_or_le x.uintval 0x80000000 with hs | hs
  · have hsg : x.getSign = false := by rw [FloatBits.getSign_eq]; exact decide_eq_false (by omega)
    simp (disch := omega) only [expf, if_pos, if_neg, FloatBits.land_abs, hsg,
      FloatBits.getUnbiasedExponent_eq, true_and, Bool.false_eq_true, if_false]
  · have hsg : x.getSign = true := by rw [FloatBits.getSign_eq]; exact decide_eq_true hs
    simp (disch := omega) only [expf, if_pos, if_neg, FloatBits.land_abs, hsg,
      FloatBits.getUnbiasedExponent_eq, FloatBits.isInf_eq, FloatBits.isNan_eq, decide_eq_true_eq,
      decide_eq_false_iff_not, if_true]

theorem exp2f_of_isNan (h : x.isNan = true) :
    exp2f env x = (if x.getSign then x else add env.round x (inf float false), env) := by
  rw [FloatBits.isNan_eq, decide_eq_true_eq] at h
  have := FloatBits.uintval_lt_two_pow x
  rcases lt_or_le x.uintval 0x80000000 with hs | hs
  · have hsg : x.getSign = false := by rw [FloatBits.getSign_eq]; exact decide_eq_false (by omega)
    simp (disch := omega) only [exp2f, exp2fExceptional_eq_none, if_pos, if_neg,
      FloatBits.land_abs, hsg, if_true, Bool.false_eq_true, if_false]
  · have hsg : x.getSign = true := by rw [FloatBits.getSign_eq]; exact decide_eq_true hs
    simp (disch := omega) only [exp2f, exp2fExceptional_eq_none, if_pos, if_neg,
      FloatBits.land_abs, hsg, FloatBits.isInf_eq, FloatBits.isNan_eq, decide_eq_true_eq,
      decide_eq_false_iff_not, if_true, Bool.true_eq_false, if_false]

theorem Generic.expm1f_of_isNan (h : x.isNan = true) :
    Generic.expm1f T env x = (if x.getSign then x else add env.round x (inf float false), env) := by
  rw [FloatBits.isNan_eq, decide_eq_true_eq] at h
  have := FloatBits.uintval_lt_two_pow x
  rcases lt_or_le x.uintval 0x80000000 with hs | hs
  · have hsg : x.getSign = false := by rw [FloatBits.getSign_eq]; exact decide_eq_false (by omega)
    simp (disch := omega) only [Generic.expm1f, if_pos, if_neg, hsg, true_and,
      Bool.false_eq_true, if_false]
  · have hsg : x.getSign = true := by rw [FloatBits.getSign_eq]; exact decide_eq_true hs
    simp (disch := omega) only [Generic.expm1f, if_pos, if_neg, hsg, FloatBits.isInf_eq,
      FloatBits.isNan_eq, decide_eq_true_eq, decide_eq_false_iff_not, if_true]

theorem Part005.expm1f_of_isNan (h : x.isNan = true) :
    Part005.expm1f T env x = (if x.getSign then x else add env.round x (inf float false), env) := by
  rw [FloatBits.isNan_eq, decide_eq_true_eq] at h
  have := FloatBits.uintval_lt_two_pow x
  rcases lt_or_le x.uintval 0x80000000 with hs | hs
  · have hsg : x.getSign = false := by rw [FloatBits.getSign_eq]; exact decide_eq_false (by omega)
    simp (disch := omega) only [Part005.expm1f, if_pos, if_neg, FloatBits.land_abs, hsg,
      Bool.false_eq_true, if_false]
  · have hsg : x.getSign = true := by rw [FloatBits.getSign_eq]; exact decide_eq_true hs
    simp (disch := omega) only [Part005.expm1f, if_pos, if_neg, FloatBits.land_abs, hsg,
      FloatBits.isInf_eq, FloatBits.isNan_eq, decide_eq_true_eq, decide_eq_false_iff_not, if_true]

/-- The result for a NaN argument, `x` or `x + inf`, is a NaN. -/
theorem isNan_nanResult (h : x.isNan = true) (mode : RoundingMode) :
    (if x.getSign then x else add mode x (inf float false)).isNan = true := by
  split
  · exact h
  · exact isNan_add_of_isNan_left h

end Nan

/-! ### All four functions -/

/-- Each function writes `ERANGE` into `errno` on the inputs its early thresholds catch and leaves
    the environment alone on every other input, the table paths included (the model's arithmetic
    raises no flag, so this leaves out the `FE_INVALID` of `x + inf` on a signaling NaN); where it
    writes `errno`,
    `x` is finite and the result is `+inf` (overflow) or `+0` (underflow). -/
theorem errno_set_by_thresholds (T : ExpTables) (env : FEnv) (x : FloatBits) :
    (expf T env x).2 = (if OverflowsAt 0x42b20000 env.round x ∨
      UnderflowsAt 0xc2cff1b5 env.round x then env.raise else env) ∧
    (exp2f env x).2 = (if OverflowsAt 0x43000000 env.round x ∨
      UnderflowsAt 0xc3160000 env.round x then env.raise else env) ∧
    (Generic.expm1f T env x).2 = (if OverflowsAt 0x42b20000 env.round x then env.raise else env) ∧
    (Part005.expm1f T env x).2 = (if OverflowsAt 0x42b20000 env.round x then env.raise else env) ∧
    (OverflowsAt 0x42b20000 env.round x → x.isInfOrNan = false ∧
      (expf T env x).1 = inf float false ∧ (Generic.expm1f T env x).1 = inf float false ∧
      (Part005.expm1f T env x).1 = inf float false) ∧
    (OverflowsAt 0x43000000 env.round x → x.isInfOrNan = false ∧ (exp2f env x).1 = inf float false) ∧
    (UnderflowsAt 0xc2cff1b5 env.round x → x.isInfOrNan = false ∧
      (expf T env x).1 = zero float false) ∧
    (UnderflowsAt 0xc3160000 env.round x → x.isInfOrNan = false ∧
      (exp2f env x).1 = zero float false) := by
  refine ⟨expf_env T env x, exp2f_env env x, Generic.expm1f_env T env x,
    Part005.expm1f_env T env x, fun h => ⟨FloatBits.isInfOrNan_of_overflowsAt h, ?_, ?_, ?_⟩,
    fun h => ⟨FloatBits.isInfOrNan_of_overflowsAt h, ?_⟩, fun h => ⟨?_, ?_⟩, fun h => ⟨?_, ?_⟩⟩
  · rw [expf_of_overflowsAt T env x h]
  · rw [Generic.expm1f_of_overflowsAt T env x h]
  · rw [Part005.expm1f_of_overflowsAt T env x h]
  · rw [exp2f_of_overflowsAt env x h]
  · exact FloatBits.isInfOrNan_eq_false (by obtain ⟨h1, h2, -⟩ := h; omega)
  · rw [expf_of_underflowsAt T env x h]
  · exact FloatBits.isInfOrNan_eq_false (by obtain ⟨h1, h2, -⟩ := h; omega)
  · rw [exp2f_of_underflowsAt env x h]

set_option maxRecDepth 20000 in
/-- `exp2f(-149.5)` rounded downward: `2^-149.5` lies below the least subnormal `2^-149`, the table
    path rounds it to `+0`, and `errno` keeps its value, while at `-150` the special-value branch
    returns the same `+0` and sets `errno` to `ERANGE`. -/
theorem exp2f_downward_zero_keeps_errno :
    (ofNat float 0xc3158000).toRat = -299 / 2 ∧
    exp2f ⟨.downward, 0, false⟩ (ofNat float 0xc3158000) = (zero float false, ⟨.downward, 0, false⟩) ∧
    exp2f ⟨.downward, 0, false⟩ (ofNat float 0xc3160000) =
      (zero float false, ⟨.downward, ERANGE, false⟩) := by
  refine ⟨?_, by decide, by decide⟩
  have hs : (ofNat float 0xc3158000).getSign = true := by decide
  have hE : (ofNat float 0xc3158000).getUnbiasedExponent = 134 := by decide
  have hM : (ofNat float 0xc3158000).getMantissa = 0x158000 := by decide
  have hq : float.minQuantum = -149 := by decide
  rw [toRat_eq _ (by decide), hs, hE, hM, hq, show float.mantissaWidth = 23 from rfl]
  norm_num

end LlvmLibc.Math
