import Mathlib.Algebra.Order.Field.Power
import Mathlib.Algebra.Order.Field.Rat
import Mathlib.Data.Rat.Cast.Order
import Mathlib.Tactic.Ring
import Mathlib.Tactic.Linarith
import Mathlib.Tactic.Positivity

/-! Binary floating-point formats and rounding (§3, §4.1, §4.2).

A datum of a binary format is NaN, a signed infinity, or a signed finite value `mant * 2^exp`. An
arithmetic operation computes its exact result and rounds it once: the magnitude is rounded to the
quantum of its binade (the unit in the last place, never finer than the least subnormal) in the
direction that the rounding mode and the sign select, and a result beyond the largest finite value
overflows. This file holds the rounding and what it guarantees, stated over `ℚ` against the set of
values of the format: a directed rounding is the greatest value below (least value above) the exact
result, every rounding lies between the two, so a rounding is exact on a value of the format and
never leaves an interval whose ends are values of the format. -/

namespace LlvmLibc.FPUtil

/-- A binary interchange format, as `FloatProperties<T>` gives it: the widths of the exponent field
    and of the stored mantissa. An exponent field of two bits or more leaves room for normal values
    between the subnormals and the infinities; a stored mantissa of one bit or more, for quiet
    NaNs. -/
structure FloatProperties where
  exponentWidth : Nat
  mantissaWidth : Nat
  two_le_exponentWidth : 2 ≤ exponentWidth
  mantissaWidth_pos : 0 < mantissaWidth
deriving DecidableEq, Repr

namespace FloatProperties

/-- `FloatProperties<float>`. -/
def float : FloatProperties := ⟨8, 23, by decide, by decide⟩

/-- `FloatProperties<double>`. -/
def double : FloatProperties := ⟨11, 52, by decide, by decide⟩

variable (F : FloatProperties)

/-- `EXPONENT_BIAS`. -/
def exponentBias : Nat := 2 ^ (F.exponentWidth - 1) - 1

/-- The exponent of the unit of the subnormals, the finest quantum of the format. -/
def minQuantum : Int := 1 - F.exponentBias - F.mantissaWidth

/-- The exponent of the largest binade. -/
def maxExponent : Int := F.exponentBias

end FloatProperties

/-- `⌊log₂ n⌋` (`0` for `n ≤ 1`) by at most `fuel` halvings. -/
def log2Loop : Nat → Nat → Nat
  | 0, _ => 0
  | fuel + 1, n => if n < 2 then 0 else log2Loop fuel (n / 2) + 1

/-- `⌊log₂ n⌋`, the index of the leading bit of `n`; `n` halvings always suffice. -/
def ilog2 (n : Nat) : Nat := log2Loop n n

/-- The rounding modes `fputil::get_round()` reports. -/
inductive RoundingMode
  | toNearest
  | upward
  | downward
  | towardZero
deriving DecidableEq, Repr

/-- How a magnitude is rounded. -/
inductive Direction
  | towardZero
  | awayFromZero
  | nearestEven
deriving DecidableEq, Repr

/-- The direction in which a rounding mode rounds the magnitude of a result of sign `sign`. -/
def RoundingMode.direction : RoundingMode → Bool → Direction
  | .toNearest, _ => .nearestEven
  | .towardZero, _ => .towardZero
  | .upward, sign => if sign then .towardZero else .awayFromZero
  | .downward, sign => if sign then .awayFromZero else .towardZero

/-- The mode that rounds `-v` as `mode` rounds `v`: upward and downward exchanged. -/
def RoundingMode.neg : RoundingMode → RoundingMode
  | .upward => .downward
  | .downward => .upward
  | mode => mode

@[simp] theorem RoundingMode.neg_neg (mode : RoundingMode) : mode.neg.neg = mode := by
  cases mode <;> rfl

/-- The exchanged mode rounds a magnitude of the other sign in the same direction. -/
theorem RoundingMode.direction_neg (mode : RoundingMode) (sign : Bool) :
    mode.neg.direction (!sign) = mode.direction sign := by
  cases mode <;> cases sign <;> rfl

/-- The quotient `t` of a division by `2^k` with remainder `r`, rounded in direction `d`. -/
def Direction.roundQuot : Direction → Nat → Nat → Nat → Nat
  | .towardZero, t, _, _ => t
  | .awayFromZero, t, r, _ => if r = 0 then t else t + 1
  | .nearestEven, t, r, k =>
    if 1 <<< k < 2 * r ∨ (2 * r = 1 <<< k ∧ t % 2 = 1) then t + 1 else t

/-- A datum of a binary format: NaN, a signed infinity, or the finite value
    `(-1)^sign * mant * 2^exp`; a zero keeps its sign. -/
inductive FPValue
  | nan
  | inf (sign : Bool)
  | finite (sign : Bool) (mant : Nat) (exp : Int)
deriving DecidableEq, Repr

/-- The value of a finite datum, `0` for NaN and the infinities. -/
def FPValue.toRat : FPValue → ℚ
  | .finite sign mant exp => (if sign then -1 else 1) * (mant * 2 ^ exp)
  | _ => 0

@[simp] theorem FPValue.toRat_finite_false (m : Nat) (q : Int) :
    (FPValue.finite false m q).toRat = m * 2 ^ q := by simp [toRat]

@[simp] theorem FPValue.toRat_finite_true (m : Nat) (q : Int) :
    (FPValue.finite true m q).toRat = -(m * 2 ^ q) := by simp [toRat]

namespace FloatProperties
variable (F : FloatProperties)

/-- The quantum exponent of `F` at the magnitude `n * 2^e`: the exponent of its binade less
    `mantissaWidth`, but never below `minQuantum`. -/
def quantum (n : Nat) (e : Int) : Int := max (e + ilog2 n - F.mantissaWidth) F.minQuantum

/-- The magnitude `n * 2^e` rounded in direction `d` to a multiple `m * 2^q` of its quantum `2^q`,
    before the overflow check. -/
def roundMag (d : Direction) (n : Nat) (e : Int) : Nat × Int :=
  let q := F.quantum n e
  if q ≤ e then (n <<< (e - q).toNat, q)
  else
    let k := (q - e).toNat
    (d.roundQuot (n >>> k) (n % (1 <<< k)) k, q)

/-- The largest finite value of `F` (`MAX_NORMAL`), with sign `sign`. -/
def maxFinite (sign : Bool) : FPValue :=
  .finite sign (2 ^ (F.mantissaWidth + 1) - 1) (F.maxExponent - F.mantissaWidth)

/-- The exact result `(-1)^sign * n * 2^e` rounded in mode `mode`: its rounded magnitude, or on
    overflow the largest finite value when the magnitude is rounded toward zero and an infinity
    otherwise. -/
def round (mode : RoundingMode) (sign : Bool) (n : Nat) (e : Int) : FPValue :=
  let d := mode.direction sign
  let r := F.roundMag d n e
  if r.1 ≠ 0 ∧ F.maxExponent < r.2 + ilog2 r.1 then
    if d = .towardZero then F.maxFinite sign else .inf sign
  else .finite sign r.1 r.2

/-! ### Values of the format -/

/-- `x` is a value of `F` when the exponent range is unbounded above: `m * 2^q` with
    `|m| < 2^(mantissaWidth + 1)` and `minQuantum ≤ q`. -/
def Representable (x : ℚ) : Prop :=
  ∃ m : ℤ, ∃ q : ℤ, F.minQuantum ≤ q ∧ m.natAbs < 2 ^ (F.mantissaWidth + 1) ∧ x = m * 2 ^ q

/-- `x` is a finite value of `F`: a value of the format below the overflow threshold. -/
def FiniteValue (x : ℚ) : Prop := F.Representable x ∧ |x| < 2 ^ (F.maxExponent + 1)

end FloatProperties

/-! ### Powers of two -/

section Pow
variable {a b : Int}

theorem two_zpow_pos (q : Int) : (0 : ℚ) < 2 ^ q := zpow_pos (by norm_num) q

theorem two_zpow_add (a b : Int) : (2 : ℚ) ^ (a + b) = 2 ^ a * 2 ^ b := zpow_add₀ two_ne_zero a b

theorem two_zpow_natCast (k : Nat) : (2 : ℚ) ^ (k : Int) = 2 ^ k := zpow_natCast 2 k

theorem two_zpow_le (h : a ≤ b) : (2 : ℚ) ^ a ≤ 2 ^ b := zpow_le_zpow_right₀ (by norm_num) h

theorem two_zpow_lt (h : a < b) : (2 : ℚ) ^ a < 2 ^ b := zpow_lt_zpow_right₀ (by norm_num) h

/-- `2^b = 2^(b - a) * 2^a` with `b - a` a natural number. -/
theorem two_zpow_of_le (h : a ≤ b) : (2 : ℚ) ^ b = 2 ^ (b - a).toNat * 2 ^ a := by
  rw [← two_zpow_natCast, Int.toNat_of_nonneg (by omega), ← two_zpow_add, Int.sub_add_cancel]

end Pow

theorem ilog2_eq (n : Nat) : ilog2 n = n.log2 := by
  have key : ∀ fuel n, n.log2 ≤ fuel → log2Loop fuel n = n.log2 := by
    intro fuel
    induction fuel with
    | zero => intro n h; simp [log2Loop, Nat.le_zero.mp h]
    | succ fuel ih =>
      intro n h
      have hl : n.log2 = if n ≥ 2 then (n / 2).log2 + 1 else 0 := by rw [Nat.log2]
      rw [log2Loop]
      split
      · rw [if_neg (by omega)] at hl
        exact hl.symm
      · rw [if_pos (by omega)] at hl
        rw [ih _ (by omega), hl]
  exact key n n (Nat.log2_le_self n)

/-- A positive magnitude lies in the binade `[2^(e + ⌊log₂ n⌋), 2^(e + ⌊log₂ n⌋ + 1))`. -/
theorem binade_le {n : Nat} (hn : n ≠ 0) (e : Int) : (2 : ℚ) ^ (e + n.log2) ≤ n * 2 ^ e := by
  rw [Int.add_comm, two_zpow_add, two_zpow_natCast]
  exact mul_le_mul_of_nonneg_right (by exact_mod_cast Nat.log2_self_le hn) (two_zpow_pos e).le

theorem lt_binade (n : Nat) (e : Int) : (n : ℚ) * 2 ^ e < 2 ^ (e + n.log2 + 1) := by
  rw [Int.add_assoc, Int.add_comm, two_zpow_add, show (n.log2 : Int) + 1 = ((n.log2 + 1 : Nat) : Int) by
    push_cast; rfl, two_zpow_natCast]
  exact mul_lt_mul_of_pos_right (by exact_mod_cast Nat.lt_log2_self) (two_zpow_pos e)

theorem log2_eq_of_le_of_lt {m k : Nat} (h1 : 2 ^ k ≤ m) (h2 : m < 2 ^ (k + 1)) : m.log2 = k := by
  have h0 : m ≠ 0 := by have := Nat.one_le_two_pow (n := k); omega
  exact le_antisymm (Nat.lt_succ_iff.mp ((Nat.log2_lt h0).mpr h2)) ((Nat.le_log2 h0).mpr h1)

theorem log2_two_pow_sub_one (k : Nat) : (2 ^ (k + 1) - 1).log2 = k :=
  log2_eq_of_le_of_lt (by rw [Nat.pow_succ]; have := Nat.one_le_two_pow (n := k); omega)
    (by have := Nat.one_le_two_pow (n := k); omega)

/-! ### Rounding to the quantum -/

namespace FloatProperties
variable (F : FloatProperties) (n : Nat) (e : Int)

theorem roundMag_snd (d : Direction) : (F.roundMag d n e).2 = F.quantum n e := by
  unfold roundMag; dsimp only; split <;> rfl

theorem minQuantum_le_quantum : F.minQuantum ≤ F.quantum n e := le_max_right _ _

theorem quantum_eq_of_ne (h : F.quantum n e ≠ F.minQuantum) :
    F.quantum n e = e + n.log2 - F.mantissaWidth := by
  unfold quantum at h ⊢
  rw [ilog2_eq] at h ⊢
  omega

/-- The magnitude rounded toward zero is the greatest multiple of the quantum at or below it. -/
theorem roundMag_towardZero_le :
    ((F.roundMag .towardZero n e).1 : ℚ) * 2 ^ F.quantum n e ≤ n * 2 ^ e ∧
    (n : ℚ) * 2 ^ e < ((F.roundMag .towardZero n e).1 + 1) * 2 ^ F.quantum n e := by
  unfold roundMag; dsimp only
  split
  · rename_i h
    rw [two_zpow_of_le h, Nat.shiftLeft_eq, Nat.cast_mul, Nat.cast_pow, Nat.cast_ofNat, ← mul_assoc]
    exact ⟨le_refl _, by linarith [two_zpow_pos (F.quantum n e)]⟩
  · rename_i h
    simp only [Direction.roundQuot]
    rw [two_zpow_of_le (show e ≤ F.quantum n e by omega), Nat.shiftRight_eq_div_pow, ← mul_assoc,
      ← mul_assoc]
    have h1 : n / 2 ^ (F.quantum n e - e).toNat * 2 ^ (F.quantum n e - e).toNat ≤ n :=
      Nat.div_mul_le_self _ _
    have h2 : n < (n / 2 ^ (F.quantum n e - e).toNat + 1) * 2 ^ (F.quantum n e - e).toNat := by
      rw [Nat.add_mul, Nat.one_mul]
      exact Nat.lt_div_mul_add (Nat.two_pow_pos _)
    exact ⟨mul_le_mul_of_nonneg_right (by exact_mod_cast h1) (two_zpow_pos e).le,
      mul_lt_mul_of_pos_right (by exact_mod_cast h2) (two_zpow_pos e)⟩

/-- Every direction rounds to the multiple of the quantum below the magnitude, or, when the
    magnitude is not a multiple, to the next one. -/
theorem roundMag_fst_cases (d : Direction) :
    (F.roundMag d n e).1 = (F.roundMag .towardZero n e).1 ∨
      ((F.roundMag d n e).1 = (F.roundMag .towardZero n e).1 + 1 ∧
        ((F.roundMag .towardZero n e).1 : ℚ) * 2 ^ F.quantum n e < n * 2 ^ e) := by
  have hlt : n % (1 <<< (F.quantum n e - e).toNat) ≠ 0 →
      ((F.roundMag .towardZero n e).1 : ℚ) * 2 ^ F.quantum n e < n * 2 ^ e := by
    intro hr
    unfold roundMag; dsimp only
    split
    · rw [show (F.quantum n e - e).toNat = 0 by omega, Nat.shiftLeft_zero, Nat.mod_one] at hr
      exact absurd rfl hr
    · simp only [Direction.roundQuot]
      rw [two_zpow_of_le (show e ≤ F.quantum n e by omega), Nat.shiftRight_eq_div_pow, ← mul_assoc]
      refine mul_lt_mul_of_pos_right ?_ (two_zpow_pos e)
      rw [Nat.one_shiftLeft] at hr
      have := Nat.div_add_mod n (2 ^ (F.quantum n e - e).toNat)
      exact_mod_cast (show n / 2 ^ (F.quantum n e - e).toNat * 2 ^ (F.quantum n e - e).toNat < n by
        rw [Nat.mul_comm]; omega)
  unfold roundMag at hlt ⊢; dsimp only at hlt ⊢
  split
  · exact .inl rfl
  · rename_i h
    simp only [h, if_false] at hlt
    cases d with
    | towardZero => exact .inl rfl
    | awayFromZero =>
      simp only [Direction.roundQuot]
      split
      · exact .inl rfl
      · exact .inr ⟨rfl, hlt ‹_›⟩
    | nearestEven =>
      simp only [Direction.roundQuot]
      split
      · rw [Nat.one_shiftLeft] at *
        exact .inr ⟨rfl, hlt (by have := Nat.one_le_two_pow (n := (F.quantum n e - e).toNat); omega)⟩
      · exact .inl rfl

/-- A value of the format is a multiple of `2^q` when `q` is at most the least quantum, or when its
    magnitude is at least `2^(q + mantissaWidth)`. -/
theorem Representable.grid {x : ℚ} (hx : F.Representable x) {q : Int}
    (h : q ≤ F.minQuantum ∨ 2 ^ (q + F.mantissaWidth) ≤ |x|) : ∃ j : Int, x = j * 2 ^ q := by
  obtain ⟨m, q', hq', hm, rfl⟩ := hx
  by_cases hle : q ≤ q'
  · exact ⟨m * 2 ^ (q' - q).toNat, by rw [two_zpow_of_le hle]; push_cast; ring⟩
  · refine absurd h (not_or.mpr ⟨by omega, not_le.mpr ?_⟩)
    have hm' : ((m.natAbs : Nat) : ℚ) < 2 ^ (F.mantissaWidth + 1) := by exact_mod_cast hm
    rw [Nat.cast_natAbs, Int.cast_abs] at hm'
    calc |(m : ℚ) * 2 ^ q'| = |(m : ℚ)| * 2 ^ q' := by rw [abs_mul, abs_of_pos (two_zpow_pos q')]
      _ < 2 ^ (F.mantissaWidth + 1) * 2 ^ q' := mul_lt_mul_of_pos_right hm' (two_zpow_pos q')
      _ = 2 ^ (q' + (F.mantissaWidth + 1 : Nat)) := by rw [two_zpow_add, two_zpow_natCast, mul_comm]
      _ ≤ 2 ^ (q + F.mantissaWidth) := two_zpow_le (by omega)

variable {F n e}

/-- Above the subnormal range, the magnitude rounded toward zero keeps all `mantissaWidth + 1`
    bits. -/
theorem two_pow_le_roundMag_towardZero (hq : F.quantum n e ≠ F.minQuantum) (hn : n ≠ 0) :
    2 ^ F.mantissaWidth ≤ (F.roundMag .towardZero n e).1 := by
  have hb : (2 : ℚ) ^ F.mantissaWidth * 2 ^ F.quantum n e ≤ n * 2 ^ e := by
    rw [← two_zpow_natCast, ← two_zpow_add, F.quantum_eq_of_ne n e hq, add_sub_cancel]
    exact binade_le hn e
  have : (2 : ℚ) ^ F.mantissaWidth < (F.roundMag .towardZero n e).1 + 1 :=
    lt_of_mul_lt_mul_right (hb.trans_lt (F.roundMag_towardZero_le n e).2) (two_zpow_pos _).le
  have : 2 ^ F.mantissaWidth < (F.roundMag .towardZero n e).1 + 1 := by exact_mod_cast this
  omega

/-- Rounded toward zero, the magnitude is the greatest value of the format at or below it. -/
theorem le_roundMag_towardZero {x : ℚ} (hx : F.Representable x) (hle : x ≤ n * 2 ^ e) :
    x ≤ (F.roundMag .towardZero n e).1 * 2 ^ F.quantum n e := by
  have hhi := (F.roundMag_towardZero_le n e).2
  rcases le_or_lt x 0 with h0 | h0
  · exact h0.trans (by positivity)
  have hn : n ≠ 0 := by
    rintro rfl
    rw [Nat.cast_zero, zero_mul] at hle
    linarith
  by_cases hg : F.quantum n e ≤ F.minQuantum ∨ 2 ^ (F.quantum n e + F.mantissaWidth) ≤ |x|
  · obtain ⟨j, rfl⟩ := hx.grid F hg
    have : (j : ℚ) < (F.roundMag .towardZero n e).1 + 1 :=
      lt_of_mul_lt_mul_right (hle.trans_lt hhi) (two_zpow_pos _).le
    have : j ≤ (F.roundMag .towardZero n e).1 := by
      have : j < ((F.roundMag .towardZero n e).1 : Int) + 1 := by exact_mod_cast this
      omega
    exact mul_le_mul_of_nonneg_right (by exact_mod_cast this) (two_zpow_pos _).le
  · push_neg at hg
    have ht := two_pow_le_roundMag_towardZero hg.1.ne' hn
    calc x ≤ |x| := le_abs_self x
      _ ≤ 2 ^ (F.quantum n e + F.mantissaWidth) := hg.2.le
      _ = ((2 ^ F.mantissaWidth : Nat) : ℚ) * 2 ^ F.quantum n e := by
        rw [add_comm, two_zpow_add, two_zpow_natCast]; push_cast; rfl
      _ ≤ _ := mul_le_mul_of_nonneg_right (by exact_mod_cast ht) (two_zpow_pos _).le

/-- Above an inexact magnitude, the next multiple of the quantum is the least value of the format
    at or above it. -/
theorem roundMag_towardZero_succ_le {x : ℚ} (hx : F.Representable x)
    (hlt : ((F.roundMag .towardZero n e).1 : ℚ) * 2 ^ F.quantum n e < n * 2 ^ e)
    (hle : n * 2 ^ e ≤ x) : ((F.roundMag .towardZero n e).1 + 1 : ℚ) * 2 ^ F.quantum n e ≤ x := by
  have hn : n ≠ 0 := by
    have : (0 : ℚ) ≤ (F.roundMag .towardZero n e).1 * 2 ^ F.quantum n e := by positivity
    rintro rfl
    rw [Nat.cast_zero, zero_mul] at hlt
    linarith
  have hg : F.quantum n e ≤ F.minQuantum ∨ 2 ^ (F.quantum n e + F.mantissaWidth) ≤ |x| := by
    by_cases hq : F.quantum n e = F.minQuantum
    · exact .inl hq.le
    · rw [F.quantum_eq_of_ne n e hq, sub_add_cancel]
      exact .inr ((binade_le hn e).trans (hle.trans (le_abs_self x)))
  obtain ⟨j, rfl⟩ := hx.grid F hg
  have : ((F.roundMag .towardZero n e).1 : ℚ) < j :=
    lt_of_mul_lt_mul_right (hlt.trans_le hle) (two_zpow_pos _).le
  have : ((F.roundMag .towardZero n e).1 : Int) + 1 ≤ j := by
    have : ((F.roundMag .towardZero n e).1 : Int) < j := by exact_mod_cast this
    omega
  exact mul_le_mul_of_nonneg_right (by exact_mod_cast this) (two_zpow_pos _).le

variable (F n e)

/-- The magnitude rounded toward zero has at most `mantissaWidth + 1` bits. -/
theorem roundMag_towardZero_lt : (F.roundMag .towardZero n e).1 < 2 ^ (F.mantissaWidth + 1) := by
  have hq : e + n.log2 + 1 ≤ F.quantum n e + (F.mantissaWidth + 1 : Nat) := by
    unfold quantum; rw [ilog2_eq]; push_cast; omega
  have : ((F.roundMag .towardZero n e).1 : ℚ) * 2 ^ F.quantum n e <
      2 ^ (F.mantissaWidth + 1) * 2 ^ F.quantum n e :=
    calc _ ≤ (n : ℚ) * 2 ^ e := (F.roundMag_towardZero_le n e).1
      _ < 2 ^ (e + n.log2 + 1) := lt_binade n e
      _ ≤ 2 ^ (F.quantum n e + (F.mantissaWidth + 1 : Nat)) := two_zpow_le hq
      _ = _ := by rw [two_zpow_add, two_zpow_natCast, mul_comm]
  exact_mod_cast lt_of_mul_lt_mul_right this (two_zpow_pos _).le

/-- Every direction rounds to a value of the format. -/
theorem representable_roundMag (d : Direction) :
    F.Representable ((F.roundMag d n e).1 * 2 ^ (F.roundMag d n e).2) := by
  have ht : (F.roundMag .towardZero n e).1 + 1 ≤ 2 ^ (F.mantissaWidth + 1) :=
    F.roundMag_towardZero_lt n e
  have hq := F.minQuantum_le_quantum n e
  rw [roundMag_snd]
  rcases F.roundMag_fst_cases n e d with h | ⟨h, -⟩ <;> rw [h]
  · exact ⟨(F.roundMag .towardZero n e).1, _, hq, F.roundMag_towardZero_lt n e, by push_cast; rfl⟩
  · rcases ht.lt_or_eq with hlt | heq
    · exact ⟨((F.roundMag .towardZero n e).1 + 1 : Nat), _, hq, hlt, by push_cast; rfl⟩
    · refine ⟨2 ^ F.mantissaWidth, F.quantum n e + 1, by omega,
        by rw [Int.natAbs_pow]; exact Nat.pow_lt_pow_succ (by norm_num), ?_⟩
      rw [heq, two_zpow_add]; push_cast; ring

variable {F n e}

/-- Every direction rounds into each interval whose ends are values of the format. -/
theorem roundMag_mem_Icc (d : Direction) {a b : ℚ} (ha : F.Representable a)
    (hb : F.Representable b) (hav : a ≤ n * 2 ^ e) (hvb : n * 2 ^ e ≤ b) :
    a ≤ (F.roundMag d n e).1 * 2 ^ (F.roundMag d n e).2 ∧
      ((F.roundMag d n e).1 : ℚ) * 2 ^ (F.roundMag d n e).2 ≤ b := by
  have hlo := le_roundMag_towardZero ha hav
  have hle := (F.roundMag_towardZero_le n e).1
  rw [roundMag_snd]
  rcases F.roundMag_fst_cases n e d with h | ⟨h, hlt⟩ <;> rw [h]
  · exact ⟨hlo, hle.trans hvb⟩
  · push_cast
    exact ⟨hlo.trans (by linarith [two_zpow_pos (F.quantum n e)]),
      roundMag_towardZero_succ_le hb hlt hvb⟩

/-- A magnitude that is a value of the format is rounded to itself in every direction. -/
theorem roundMag_exact (d : Direction) (h : F.Representable (n * 2 ^ e)) :
    ((F.roundMag d n e).1 : ℚ) * 2 ^ (F.roundMag d n e).2 = n * 2 ^ e :=
  le_antisymm (roundMag_mem_Icc d h h le_rfl le_rfl).2 (roundMag_mem_Icc d h h le_rfl le_rfl).1

/-! ### The next multiple of the quantum -/

/-- On the grid of `2^e` or a coarser one the magnitude rounds to itself: every direction returns
    the multiple of the quantum it equals. -/
theorem roundMag_towardZero_exact (h : F.quantum n e ≤ e) :
    ((F.roundMag .towardZero n e).1 : ℚ) * 2 ^ F.quantum n e = n * 2 ^ e := by
  unfold roundMag; dsimp only
  rw [if_pos h, two_zpow_of_le h, Nat.shiftLeft_eq]; push_cast; ring

/-- Below a quantum coarser than `2^e`, the rounded magnitude is the quotient by `2^k`,
    `k = quantum - e`, rounded in the direction from the remainder. -/
theorem roundMag_of_lt (h : e < F.quantum n e) (d : Direction) :
    (F.roundMag d n e).1 = d.roundQuot (n / 2 ^ (F.quantum n e - e).toNat)
      (n % 2 ^ (F.quantum n e - e).toNat) (F.quantum n e - e).toNat := by
  unfold roundMag; dsimp only
  rw [if_neg (not_le.mpr h), Nat.shiftRight_eq_div_pow, Nat.one_shiftLeft]

/-- What rounding toward zero leaves over is the remainder, in units of `2^e`. -/
theorem sub_roundMag_towardZero (h : e < F.quantum n e) :
    (n : ℚ) * 2 ^ e - (F.roundMag .towardZero n e).1 * 2 ^ F.quantum n e =
      (n % 2 ^ (F.quantum n e - e).toNat : Nat) * 2 ^ e := by
  have hn : (n : ℚ) = (2 ^ (F.quantum n e - e).toNat : Nat) * (n / 2 ^ (F.quantum n e - e).toNat : Nat)
      + (n % 2 ^ (F.quantum n e - e).toNat : Nat) := by
    exact_mod_cast (Nat.div_add_mod n _).symm
  rw [roundMag_of_lt h, Direction.roundQuot, two_zpow_of_le h.le, hn]
  push_cast; ring

/-- Off the grid of the quantum, rounding away from zero takes the next multiple. -/
theorem roundMag_awayFromZero_of_lt
    (hlt : ((F.roundMag .towardZero n e).1 : ℚ) * 2 ^ F.quantum n e < n * 2 ^ e) :
    (F.roundMag .awayFromZero n e).1 = (F.roundMag .towardZero n e).1 + 1 := by
  have hq : e < F.quantum n e := by
    by_contra hle
    linarith [roundMag_towardZero_exact (not_lt.mp hle)]
  have hr : n % 2 ^ (F.quantum n e - e).toNat ≠ 0 := by
    intro h0
    have := sub_roundMag_towardZero hq
    rw [h0, Nat.cast_zero, zero_mul] at this
    linarith
  rw [roundMag_of_lt hq, roundMag_of_lt hq]
  simp only [Direction.roundQuot, if_neg hr]

/-- Rounding to nearest takes the next multiple of the quantum above the middle of a quantum, and
    at the middle above an odd multiple; otherwise it keeps the multiple below. -/
theorem roundMag_nearestEven_eq : (F.roundMag .nearestEven n e).1 =
    if 2 ^ F.quantum n e < 2 * ((n : ℚ) * 2 ^ e - (F.roundMag .towardZero n e).1 * 2 ^ F.quantum n e) ∨
      (2 * ((n : ℚ) * 2 ^ e - (F.roundMag .towardZero n e).1 * 2 ^ F.quantum n e) = 2 ^ F.quantum n e ∧
        (F.roundMag .towardZero n e).1 % 2 = 1)
    then (F.roundMag .towardZero n e).1 + 1 else (F.roundMag .towardZero n e).1 := by
  by_cases hq : e < F.quantum n e
  · have hk : (2 : ℚ) ^ F.quantum n e = (2 ^ (F.quantum n e - e).toNat : Nat) * 2 ^ e := by
      rw [two_zpow_of_le hq.le]; push_cast; rfl
    have hc : ∀ r : Nat, ((2 : ℚ) ^ F.quantum n e < 2 * (r * 2 ^ e) ↔ 1 <<< (F.quantum n e - e).toNat < 2 * r) ∧
        (2 * ((r : ℚ) * 2 ^ e) = 2 ^ F.quantum n e ↔ 2 * r = 1 <<< (F.quantum n e - e).toNat) := by
      intro r
      rw [hk, ← mul_assoc, Nat.one_shiftLeft, mul_lt_mul_right (two_zpow_pos e),
        mul_left_inj' (two_zpow_pos e).ne']
      exact ⟨by norm_cast, by norm_cast⟩
    simp only [sub_roundMag_towardZero hq, (hc _).1, (hc _).2]
    rw [roundMag_of_lt hq, roundMag_of_lt hq]
    rfl
  · have h := roundMag_towardZero_exact (not_lt.mp hq)
    rw [h, sub_self, mul_zero, if_neg (by rintro (h | ⟨h, -⟩) <;> linarith [two_zpow_pos (F.quantum n e)])]
    unfold roundMag; dsimp only
    rw [if_pos (not_lt.mp hq), if_pos (not_lt.mp hq)]

/-! ### The datum `round` returns -/

variable (F) in
/-- A finite datum `m * 2^q` that has a bit pattern in `F`: `q` is at least the least quantum, `m`
    has at most `mantissaWidth + 1` bits or has just been carried to `2^(mantissaWidth + 1)`, a
    nonzero `m` below `2^mantissaWidth` occurs only at the least quantum, and the value lies in a
    binade of `F`. -/
structure Encodable (m : Nat) (q : Int) : Prop where
  minQuantum_le : F.minQuantum ≤ q
  le_two_pow : m ≤ 2 ^ (F.mantissaWidth + 1)
  normal : m = 0 ∨ q = F.minQuantum ∨ 2 ^ F.mantissaWidth ≤ m
  le_maxExponent : m ≠ 0 → q + m.log2 ≤ F.maxExponent

theorem one_le_exponentBias : 1 ≤ F.exponentBias := by
  have : 2 ^ 1 ≤ 2 ^ (F.exponentWidth - 1) :=
    Nat.pow_le_pow_right (by norm_num) (by have := F.two_le_exponentWidth; omega)
  unfold exponentBias
  omega

theorem encodable_maxFinite :
    F.Encodable (2 ^ (F.mantissaWidth + 1) - 1) (F.maxExponent - F.mantissaWidth) := by
  have := F.one_le_exponentBias
  have := Nat.one_le_two_pow (n := F.mantissaWidth)
  refine ⟨?_, Nat.sub_le _ _, .inr (.inr ?_), fun _ => ?_⟩
  · unfold minQuantum maxExponent; omega
  · rw [Nat.pow_succ]; omega
  · rw [log2_two_pow_sub_one]; omega

theorem roundMag_zero (d : Direction) : (F.roundMag d 0 e).1 = 0 := by
  have := Nat.one_le_two_pow (n := (F.quantum 0 e - e).toNat)
  unfold roundMag; dsimp only
  split
  · exact Nat.zero_shiftLeft _
  · cases d <;> simp [Direction.roundQuot, Nat.one_shiftLeft]

/-- `round` returns an infinity or an encodable finite datum, of the sign it was given. -/
theorem round_cases (mode : RoundingMode) (sign : Bool) :
    F.round mode sign n e = .inf sign ∨
      ∃ m q, F.round mode sign n e = .finite sign m q ∧ F.Encodable m q := by
  unfold round; dsimp only
  split
  · split
    · exact .inr ⟨_, _, rfl, F.encodable_maxFinite⟩
    · exact .inl rfl
  · rename_i hov
    have ht := F.roundMag_towardZero_lt n e
    have hcases := F.roundMag_fst_cases n e (mode.direction sign)
    refine .inr ⟨_, _, rfl, ⟨?_, ?_, ?_, fun hm => ?_⟩⟩
    · rw [roundMag_snd]; exact F.minQuantum_le_quantum n e
    · omega
    · rw [roundMag_snd]
      by_cases hn : n = 0
      · subst hn; exact .inl (F.roundMag_zero _)
      · by_cases hq : F.quantum n e = F.minQuantum
        · exact .inr (.inl hq)
        · have := two_pow_le_roundMag_towardZero hq hn; omega
    · rw [← ilog2_eq]; exact not_lt.mp fun h => hov ⟨hm, h⟩

/-- Below the overflow threshold, `round` returns the rounded magnitude. -/
theorem round_of_lt (mode : RoundingMode) (sign : Bool)
    (h : ((F.roundMag (mode.direction sign) n e).1 : ℚ) * 2 ^ (F.roundMag (mode.direction sign) n e).2
      < 2 ^ (F.maxExponent + 1)) :
    F.round mode sign n e =
      .finite sign (F.roundMag (mode.direction sign) n e).1 (F.roundMag (mode.direction sign) n e).2 := by
  unfold round; dsimp only
  rw [if_neg]
  rintro ⟨hm, hov⟩
  rw [ilog2_eq] at hov
  have := binade_le hm (F.roundMag (mode.direction sign) n e).2
  have := two_zpow_le (show F.maxExponent + 1 ≤
    (F.roundMag (mode.direction sign) n e).2 + (F.roundMag (mode.direction sign) n e).1.log2 by omega)
  linarith

/-! ### Values of encodable data -/

theorem Representable.neg {x : ℚ} (h : F.Representable x) : F.Representable (-x) := by
  obtain ⟨m, q, hq, hm, rfl⟩ := h
  exact ⟨-m, q, hq, by rwa [Int.natAbs_neg], by push_cast; ring⟩

theorem FiniteValue.neg {x : ℚ} (h : F.FiniteValue x) : F.FiniteValue (-x) :=
  ⟨h.1.neg, by rw [abs_neg]; exact h.2⟩

theorem representable_mul_two_zpow {m : Nat} {q : Int} (hq : F.minQuantum ≤ q)
    (hm : m < 2 ^ (F.mantissaWidth + 1)) : F.Representable (m * 2 ^ q) :=
  ⟨m, q, hq, by simpa using hm, by push_cast; rfl⟩

theorem Representable.mul_two_zpow {x : ℚ} (h : F.Representable x) {k : Int} (hk : 0 ≤ k) :
    F.Representable (x * 2 ^ k) := by
  obtain ⟨m, q, hq, hm, rfl⟩ := h
  exact ⟨m, q + k, by omega, hm, by rw [two_zpow_add]; ring⟩

/-- `m * 2^q` with `|m| < 2^(mantissaWidth + 1)` is a finite value from the least quantum up to
    `q + mantissaWidth = maxExponent`. -/
theorem finiteValue_int_mul {m q : Int} (hq : F.minQuantum ≤ q)
    (hm : m.natAbs < 2 ^ (F.mantissaWidth + 1)) (hmax : q + F.mantissaWidth ≤ F.maxExponent) :
    F.FiniteValue (m * 2 ^ q) := by
  refine ⟨⟨m, q, hq, hm, rfl⟩, ?_⟩
  have hm' : ((m.natAbs : Nat) : ℚ) < 2 ^ (F.mantissaWidth + 1) := by exact_mod_cast hm
  rw [Nat.cast_natAbs, Int.cast_abs] at hm'
  calc |(m : ℚ) * 2 ^ q| = |(m : ℚ)| * 2 ^ q := by rw [abs_mul, abs_of_pos (two_zpow_pos q)]
    _ < 2 ^ (F.mantissaWidth + 1) * 2 ^ q := mul_lt_mul_of_pos_right hm' (two_zpow_pos q)
    _ = 2 ^ (q + (F.mantissaWidth + 1 : Nat)) := by rw [two_zpow_add, two_zpow_natCast, mul_comm]
    _ ≤ 2 ^ (F.maxExponent + 1) := two_zpow_le (by push_cast; omega)

variable {m : Nat} {q : Int}

theorem Encodable.representable (h : F.Encodable m q) : F.Representable (m * 2 ^ q) := by
  rcases h.le_two_pow.lt_or_eq with hlt | rfl
  · exact representable_mul_two_zpow h.minQuantum_le hlt
  · refine ⟨2 ^ F.mantissaWidth, q + 1, by linarith [h.minQuantum_le], ?_, ?_⟩
    · rw [Int.natAbs_pow]; exact Nat.pow_lt_pow_succ (by norm_num)
    · push_cast; rw [two_zpow_add, pow_succ]; ring

theorem Encodable.lt (h : F.Encodable m q) : (m : ℚ) * 2 ^ q < 2 ^ (F.maxExponent + 1) := by
  rcases Nat.eq_zero_or_pos m with rfl | hm
  · rw [Nat.cast_zero, zero_mul]; exact two_zpow_pos _
  · calc _ < (2 : ℚ) ^ (q + m.log2 + 1) := lt_binade m q
      _ ≤ _ := two_zpow_le (by have := h.le_maxExponent hm.ne'; omega)

/-- An encodable finite datum is a finite value of `F`. -/
theorem Encodable.finiteValue (h : F.Encodable m q) (s : Bool) :
    F.FiniteValue (FPValue.finite s m q).toRat := by
  have hv : F.FiniteValue (m * 2 ^ q) :=
    ⟨h.representable, by rw [abs_of_nonneg (by positivity)]; exact h.lt⟩
  cases s
  · simpa using hv
  · simpa using hv.neg

end FloatProperties

end LlvmLibc.FPUtil
