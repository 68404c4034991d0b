import LlvmLibc.FPUtil.FPBits
import Mathlib.Data.Rat.Floor

/-! Floating-point arithmetic on patterns (§4.2, §4.3): `+`, `-`, `*`, `fputil::fma`,
`fputil::multiply_add`, `fputil::polyeval`, the conversions and the comparisons.

An operation decodes its operands, computes the exact result of finite operands and rounds it once
in the current rounding mode. An exact zero sum is `+0`, or `-0` when rounding downward or when both
addends are `-0` (IEEE 754 §6.3); a NaN operand comes back quietened, and the invalid operations
(`∞ - ∞`, `0 · ∞`) give the default NaN.

The main results say what every operation does on finite operands: when its exact result lies
between two finite values of the format, it returns a finite pattern between them (`add_within`,
`sub_within`, `mul_within`, `fma_within`, `convert_within`, `ofInt_within`). With both ends equal
to the exact result this is exactness; with ends chosen on either side it bounds an inexact
result. The comparisons compare values (`le_eq_decide`), and the conversion to `int` truncates
(`toIntTrunc_eq`). -/

namespace LlvmLibc.FPUtil

/-- The exact sum of `(-1)^s * m * 2^e` and `(-1)^t * n * 2^f`: a sign and a magnitude in units of
    `2^(min e f)`. -/
def alignedSum (s : Bool) (m : Nat) (e : Int) (t : Bool) (n : Nat) (f : Int) : Bool × Nat :=
  let a := m <<< (e - min e f).toNat
  let b := n <<< (f - min e f).toNat
  if s = t then (s, a + b) else if b ≤ a then (s, a - b) else (t, b - a)

/-- A finite datum read as an integer multiple of `2^k`, for `k` at most its exponent. -/
def signedAt (k : Int) (s : Bool) (m : Nat) (e : Int) : Int :=
  if s then -((m <<< (e - k).toNat : Nat) : Int) else ((m <<< (e - k).toNat : Nat) : Int)

/-- Whether `x ≤ y` for data that are not NaNs: the finite ones compared as integers at a common
    exponent, the infinities at the ends. -/
def FPValue.le : FPValue → FPValue → Bool
  | .nan, _ => false
  | _, .nan => false
  | .inf s, .inf t => s || !t
  | .inf s, .finite .. => s
  | .finite .., .inf t => !t
  | .finite s m e, .finite t n f => signedAt (min e f) s m e ≤ signedAt (min e f) t n f

/-- Whether a datum is a zero of either sign. -/
def FPValue.isZero : FPValue → Bool
  | .finite _ m _ => m == 0
  | _ => false

namespace FloatProperties
variable (F : FloatProperties)

/-- The hexadecimal floating literal `0x<h>.<ddd>p<e>` of the sources, given as the integer `m` of
    all its digits and `e` less four per digit after the point, and rounded to nearest as the
    compiler rounds a literal. -/
def lit (m : Nat) (e : Int) : FPBits F := F.encode (F.round .toNearest false m e)

/-- The sum of two finite data rounded in `mode`; an exact zero is `+0`, or `-0` when both addends
    are `-0` or when rounding downward. -/
def addFinite (mode : RoundingMode) (s : Bool) (m : Nat) (e : Int) (t : Bool) (n : Nat) (f : Int) :
    FPBits F :=
  let r := alignedSum s m e t n f
  if r.2 = 0 then FPBits.zero F (if s = t then s else decide (mode = .downward))
  else F.encode (F.round mode r.1 r.2 (min e f))

end FloatProperties

namespace FPBits
variable {F : FloatProperties}

/-- `x + y`. -/
def add (mode : RoundingMode) (x y : FPBits F) : FPBits F :=
  match x.toFPValue, y.toFPValue with
  | .nan, _ => x.quiet
  | _, .nan => y.quiet
  | .inf s, .inf t => if s = t then x else defaultNaN F
  | .inf _, _ => x
  | _, .inf _ => y
  | .finite s m e, .finite t n f => F.addFinite mode s m e t n f

/-- `x - y`, that is `x + (-y)`. -/
def sub (mode : RoundingMode) (x y : FPBits F) : FPBits F := add mode x y.neg

/-- `x * y`. -/
def mul (mode : RoundingMode) (x y : FPBits F) : FPBits F :=
  match x.toFPValue, y.toFPValue with
  | .nan, _ => x.quiet
  | _, .nan => y.quiet
  | .inf s, .inf t => inf F (s != t)
  | .inf s, .finite t n _ => if n = 0 then defaultNaN F else inf F (s != t)
  | .finite s m _, .inf t => if m = 0 then defaultNaN F else inf F (s != t)
  | .finite s m e, .finite t n f => F.encode (F.round mode (s != t) (m * n) (e + f))

/-- Modelled from the spec: `fputil::fma(x, y, z)` (`FMA.h` is not part of the sources), the fused
    multiply-add `x * y + z` with a single rounding. -/
def fma (mode : RoundingMode) (x y z : FPBits F) : FPBits F :=
  match x.toFPValue, y.toFPValue, z.toFPValue with
  | .nan, _, _ => x.quiet
  | _, .nan, _ => y.quiet
  | _, _, .nan => z.quiet
  | .finite s m e, .finite t n f, .finite u p g => F.addFinite mode (s != t) (m * n) (e + f) u p g
  | .finite .., .finite .., .inf _ => z
  | vx, vy, vz =>
    if vx.isZero || vy.isZero then defaultNaN F
    else match vz with
      | .inf u => if u = (x.getSign != y.getSign) then z else defaultNaN F
      | _ => inf F (x.getSign != y.getSign)

/-- Modelled from the spec: `fputil::multiply_add(x, y, z)` (`multiply_add.h` is not part of the
    sources) is, in its generic template, `x * y + z` with two roundings. -/
def multiplyAdd (mode : RoundingMode) (x y z : FPBits F) : FPBits F := add mode (mul mode x y) z

/-- Modelled from the spec: `fputil::polyeval(x, a0, a1, ..., an)` (`PolyEval.h` is not part of the
    sources) evaluates `a0 + x * (a1 + x * (... + x * an))` by Horner's scheme, one
    `multiply_add` per coefficient after the last. -/
def polyeval (mode : RoundingMode) (x : FPBits F) : List (FPBits F) → FPBits F
  | [] => zero F false
  | [a] => a
  | a :: as => multiplyAdd mode x (polyeval mode x as) a

/-- `static_cast` to the format `G` (`float` to `double` and back): a NaN keeps its sign and the
    leading bits of its payload and becomes quiet; a finite value is rounded. -/
def convert (G : FloatProperties) (mode : RoundingMode) (x : FPBits F) : FPBits G :=
  match x.toFPValue with
  | .nan => build G x.getSign (2 ^ G.exponentWidth - 1)
      ((x.quiet.getMantissa <<< G.mantissaWidth) >>> F.mantissaWidth)
  | .inf s => inf G s
  | .finite s m e => G.encode (G.round mode s m e)

/-- `static_cast<float>(i)` (or `double`) of an integer. -/
def ofInt (F : FloatProperties) (mode : RoundingMode) (i : Int) : FPBits F :=
  F.encode (F.round mode (decide (i < 0)) i.natAbs 0)

/-- `static_cast<int>(x)`, which truncates toward zero. The sources convert finite values within
    the range of `int` only (`0` stands for the undefined results). -/
def toIntTrunc (x : FPBits F) : Int :=
  match x.toFPValue with
  | .finite s m e =>
    let t : Nat := if 0 ≤ e then m <<< e.toNat else m >>> (-e).toNat
    if s then -(t : Int) else t
  | _ => 0

/-- `x <= y`; false when either is a NaN. -/
def le (x y : FPBits F) : Bool := x.toFPValue.le y.toFPValue

/-- `x < y`; false when either is a NaN. -/
def lt (x y : FPBits F) : Bool := x.le y && !y.le x

/-- `x != y`; true when either is a NaN. -/
def ne (x y : FPBits F) : Bool := !(x.le y && y.le x)

end FPBits

/-! ### Rounding into an interval -/

namespace FPBits
variable {F : FloatProperties}

/-- `x` is a finite pattern whose value lies in `[a, b]`. -/
structure Within (x : FPBits F) (a b : ℚ) : Prop where
  isInfOrNan_eq : x.isInfOrNan = false
  le_toRat : a ≤ x.toRat
  toRat_le : x.toRat ≤ b

theorem Within.toRat_eq {x : FPBits F} {v : ℚ} (h : x.Within v v) : x.toRat = v :=
  le_antisymm h.toRat_le h.le_toRat

theorem isInfOrNan_eq_false_of_finite {x : FPBits F} {s : Bool} {m : Nat} {e : Int}
    (h : x.toFPValue = .finite s m e) : x.isInfOrNan = false := by
  unfold toFPValue at h
  simp only [isInfOrNan, beq_eq_false_iff_ne]
  split_ifs at h with hE <;> exact hE

theorem within_zero (s : Bool) {a b : ℚ} (ha : a ≤ 0) (hb : 0 ≤ b) : (zero F s).Within a b := by
  have h := toFPValue_build_zero (F := F) s (Nat.two_pow_pos F.mantissaWidth)
  refine ⟨isInfOrNan_eq_false_of_finite h, ?_, ?_⟩ <;> cases s <;> simpa [zero, toRat, h]

end FPBits

namespace FloatProperties
variable {F : FloatProperties}

theorem representable_zero : F.Representable 0 := ⟨0, F.minQuantum, le_rfl, by simp, by simp⟩

/-- A rounded magnitude between two finite values `a ≤ n * 2^e ≤ b` with `0 ≤ a` is a finite datum
    between them. -/
theorem round_mem_Icc_of_nonneg (mode : RoundingMode) (sign : Bool) {n : Nat} {e : Int} {a b : ℚ}
    (ha : F.Representable a) (hb : F.FiniteValue b) (hav : a ≤ n * 2 ^ e) (hvb : n * 2 ^ e ≤ b) :
    ∃ m q, F.round mode sign n e = .finite sign m q ∧ F.Encodable m q ∧
      a ≤ m * 2 ^ q ∧ m * 2 ^ q ≤ b := by
  have hI := roundMag_mem_Icc (mode.direction sign) ha hb.1 hav hvb
  have hround := round_of_lt mode sign (hI.2.trans_lt ((le_abs_self b).trans_lt hb.2))
  rcases round_cases (F := F) (n := n) (e := e) mode sign with h | ⟨m, q, h, henc⟩
  · rw [hround] at h; cases h
  · rw [hround] at h
    obtain ⟨rfl, rfl⟩ : _ = m ∧ _ = q := by simpa using h
    exact ⟨_, _, hround, henc, hI⟩

/-- Rounding `(-1)^sign * n * 2^e` in any mode, when it lies between two finite values of the
    format, gives a finite pattern between them. -/
theorem encode_round_within (mode : RoundingMode) (sign : Bool) (n : Nat) (e : Int) {a b : ℚ}
    (ha : F.FiniteValue a) (hb : F.FiniteValue b) (hav : a ≤ (FPValue.finite sign n e).toRat)
    (hvb : (FPValue.finite sign n e).toRat ≤ b) : (F.encode (F.round mode sign n e)).Within a b := by
  have hmag : ∀ a' b' : ℚ, F.Representable a' → F.FiniteValue b' → a' ≤ n * 2 ^ e →
      n * 2 ^ e ≤ b' → ∃ r : ℚ, (F.encode (F.round mode sign n e)).isInfOrNan = false ∧
        (F.encode (F.round mode sign n e)).toRat = (if sign then -1 else 1) * r ∧ a' ≤ r ∧ r ≤ b' := by
    intro a' b' ha' hb' h1 h2
    obtain ⟨m, q, hr, henc, hm1, hm2⟩ := round_mem_Icc_of_nonneg mode sign ha' hb' h1 h2
    obtain ⟨m', q', hd, hv⟩ := FPBits.toFPValue_encode sign henc
    refine ⟨m * 2 ^ q, ?_, ?_, hm1, hm2⟩ <;> rw [hr]
    · exact FPBits.isInfOrNan_eq_false_of_finite hd
    · rw [FPBits.toRat, hd, FPValue.toRat, hv]
  have h0 : (0 : ℚ) ≤ n * 2 ^ e := by positivity
  cases sign
  · simp only [FPValue.toRat_finite_false] at hav hvb
    obtain ⟨r, hf, hr, h1, h2⟩ := hmag (max a 0) b
      (by rcases le_total a 0 with h | h
          · rw [max_eq_right h]; exact representable_zero
          · rw [max_eq_left h]; exact ha.1) hb (max_le hav h0) hvb
    refine ⟨hf, ?_, ?_⟩ <;> rw [hr] <;> simp only [Bool.false_eq_true, if_false, one_mul]
    · exact (le_max_left a 0).trans h1
    · exact h2
  · simp only [FPValue.toRat_finite_true] at hav hvb
    obtain ⟨r, hf, hr, h1, h2⟩ := hmag (max (-b) 0) (-a)
      (by rcases le_total (-b) 0 with h | h
          · rw [max_eq_right h]; exact representable_zero
          · rw [max_eq_left h]; exact hb.1.neg) ha.neg (max_le (by linarith) h0) (by linarith)
    refine ⟨hf, ?_, ?_⟩ <;> rw [hr] <;> simp only [if_true]
    · linarith
    · linarith [le_max_left (-b) 0]

/-- A literal whose value is a finite value of the format is exact. -/
theorem lit_within {m : Nat} {e : Int} (h : F.FiniteValue (m * 2 ^ e)) :
    (F.lit m e).Within (m * 2 ^ e) (m * 2 ^ e) :=
  encode_round_within .toNearest false m e h h (by simp) (by simp)

end FloatProperties

/-! ### Exact results of finite operands -/

theorem toRat_alignedSum (s : Bool) (m : Nat) (e : Int) (t : Bool) (n : Nat) (f : Int) :
    (FPValue.finite (alignedSum s m e t n f).1 (alignedSum s m e t n f).2 (min e f)).toRat =
      (FPValue.finite s m e).toRat + (FPValue.finite t n f).toRat := by
  have hm : ((m <<< (e - min e f).toNat : Nat) : ℚ) * 2 ^ min e f = m * 2 ^ e := by
    rw [Nat.shiftLeft_eq, Nat.cast_mul, Nat.cast_pow, Nat.cast_ofNat, mul_assoc,
      ← two_zpow_of_le (min_le_left e f)]
  have hn : ((n <<< (f - min e f).toNat : Nat) : ℚ) * 2 ^ min e f = n * 2 ^ f := by
    rw [Nat.shiftLeft_eq, Nat.cast_mul, Nat.cast_pow, Nat.cast_ofNat, mul_assoc,
      ← two_zpow_of_le (min_le_right e f)]
  unfold alignedSum
  dsimp only
  split_ifs with hst hba
  · subst hst
    cases s <;> simp only [FPValue.toRat_finite_false, FPValue.toRat_finite_true] <;> push_cast <;>
      linarith
  · obtain rfl : t = !s := by cases s <;> cases t <;> simp_all
    cases s <;> simp only [FPValue.toRat_finite_false, FPValue.toRat_finite_true, Bool.not_false,
      Bool.not_true] <;> push_cast [Nat.cast_sub hba] <;> linarith
  · obtain rfl : t = !s := by cases s <;> cases t <;> simp_all
    cases s <;> simp only [FPValue.toRat_finite_false, FPValue.toRat_finite_true, Bool.not_false,
      Bool.not_true] <;> push_cast [Nat.cast_sub (le_of_lt (not_le.mp hba))] <;> linarith

theorem toRat_finite_mul (s : Bool) (m : Nat) (e : Int) (t : Bool) (n : Nat) (f : Int) :
    (FPValue.finite (s != t) (m * n) (e + f)).toRat =
      (FPValue.finite s m e).toRat * (FPValue.finite t n f).toRat := by
  cases s <;> cases t <;> simp only [FPValue.toRat_finite_false, FPValue.toRat_finite_true,
    bne_self_eq_false, Bool.bne_true, Bool.bne_false, Bool.not_false, Bool.not_true] <;>
    push_cast <;> rw [two_zpow_add] <;> ring

namespace FloatProperties
variable {F : FloatProperties}

/-- A sum of finite data between two finite values rounds to a finite pattern between them. -/
theorem addFinite_within (mode : RoundingMode) (s : Bool) (m : Nat) (e : Int) (t : Bool) (n : Nat)
    (f : Int) {a b : ℚ} (ha : F.FiniteValue a) (hb : F.FiniteValue b)
    (hav : a ≤ (FPValue.finite s m e).toRat + (FPValue.finite t n f).toRat)
    (hvb : (FPValue.finite s m e).toRat + (FPValue.finite t n f).toRat ≤ b) :
    (F.addFinite mode s m e t n f).Within a b := by
  rw [← toRat_alignedSum] at hav hvb
  unfold addFinite
  dsimp only
  by_cases h0 : (alignedSum s m e t n f).2 = 0
  · rw [if_pos h0]
    rw [h0] at hav hvb
    exact FPBits.within_zero _ (by simpa [FPValue.toRat] using hav) (by simpa [FPValue.toRat] using hvb)
  · rw [if_neg h0]
    exact encode_round_within mode _ _ _ ha hb hav hvb

end FloatProperties

namespace FPBits
variable {F : FloatProperties} (mode : RoundingMode) {x y z : FPBits F} {a b : ℚ}

section Within
variable (hx : x.isInfOrNan = false) (hy : y.isInfOrNan = false)
  (ha : F.FiniteValue a) (hb : F.FiniteValue b)
include hx hy ha hb

/-- `x + y` of finite operands, when `x + y` lies between two finite values, lies between them. -/
theorem add_within (hav : a ≤ x.toRat + y.toRat) (hvb : x.toRat + y.toRat ≤ b) :
    (add mode x y).Within a b := by
  obtain ⟨m, e, hxv, -⟩ := x.toFPValue_of_isInfOrNan_false hx
  obtain ⟨n, f, hyv, -⟩ := y.toFPValue_of_isInfOrNan_false hy
  rw [toRat, toRat, hxv, hyv] at hav hvb
  simp only [add, hxv, hyv]
  exact F.addFinite_within mode _ _ _ _ _ _ ha hb hav hvb

/-- `x * y` of finite operands, when `x * y` lies between two finite values, lies between them. -/
theorem mul_within (hav : a ≤ x.toRat * y.toRat) (hvb : x.toRat * y.toRat ≤ b) :
    (mul mode x y).Within a b := by
  obtain ⟨m, e, hxv, -⟩ := x.toFPValue_of_isInfOrNan_false hx
  obtain ⟨n, f, hyv, -⟩ := y.toFPValue_of_isInfOrNan_false hy
  rw [toRat, toRat, hxv, hyv, ← toRat_finite_mul] at hav hvb
  simp only [mul, hxv, hyv]
  exact F.encode_round_within mode _ _ _ ha hb hav hvb

end Within


/-! ### Negation, subtraction and conversions -/

theorem isInfOrNan_neg (x : FPBits F) : x.neg.isInfOrNan = x.isInfOrNan := by
  simp only [neg, isInfOrNan, getUnbiasedExponent_build _ x.getUnbiasedExponent_lt x.getMantissa_lt]

theorem toRat_neg (hx : x.isInfOrNan = false) : x.neg.toRat = -x.toRat := by
  rw [toRat_eq x.neg (by rwa [isInfOrNan_neg]), toRat_eq x hx]
  simp only [neg, getSign_build _ x.getUnbiasedExponent_lt x.getMantissa_lt,
    getUnbiasedExponent_build _ x.getUnbiasedExponent_lt x.getMantissa_lt,
    getMantissa_build _ x.getUnbiasedExponent_lt x.getMantissa_lt]
  cases x.getSign <;> by_cases hE : x.getUnbiasedExponent = 0 <;> simp [hE]

/-- `x - y` of finite operands, when `x - y` lies between two finite values, lies between them. -/
theorem sub_within (hx : x.isInfOrNan = false) (hy : y.isInfOrNan = false) (ha : F.FiniteValue a)
    (hb : F.FiniteValue b) (hav : a ≤ x.toRat - y.toRat) (hvb : x.toRat - y.toRat ≤ b) :
    (sub mode x y).Within a b := by
  rw [sub_eq_add_neg, ← toRat_neg hy] at hav hvb
  exact add_within mode hx (by rwa [isInfOrNan_neg]) ha hb hav hvb

/-- A conversion of a finite value between two finite values of the target lies between them. -/
theorem convert_within {G : FloatProperties} (hx : x.isInfOrNan = false) (ha : G.FiniteValue a)
    (hb : G.FiniteValue b) (hav : a ≤ x.toRat) (hvb : x.toRat ≤ b) :
    (convert G mode x).Within a b := by
  obtain ⟨m, e, hxv, -⟩ := x.toFPValue_of_isInfOrNan_false hx
  rw [toRat, hxv] at hav hvb
  simp only [convert, hxv]
  exact G.encode_round_within mode _ _ _ ha hb hav hvb

/-- The conversion of an integer between two finite values lies between them. -/
theorem ofInt_within (i : Int) (ha : F.FiniteValue a) (hb : F.FiniteValue b) (hav : a ≤ i)
    (hvb : (i : ℚ) ≤ b) : (ofInt F mode i).Within a b := by
  have hi : (FPValue.finite (decide (i < 0)) i.natAbs 0).toRat = i := by
    rcases lt_or_le i 0 with h | h
    · rw [decide_eq_true h]
      simp only [FPValue.toRat_finite_true, zpow_zero, mul_one, Nat.cast_natAbs, Int.cast_abs,
        abs_of_neg (Int.cast_lt_zero.mpr h), neg_neg]
    · rw [decide_eq_false (not_lt.mpr h)]
      simp only [FPValue.toRat_finite_false, zpow_zero, mul_one, Nat.cast_natAbs, Int.cast_abs,
        abs_of_nonneg (Int.cast_nonneg.mpr h)]
  exact F.encode_round_within mode _ _ _ ha hb (hi ▸ hav) (hi ▸ hvb)

/-- The integer part of `m * 2^e`, as `toIntTrunc` shifts it out. -/
theorem shift_le_and_lt (m : Nat) (e : Int) :
    (((if 0 ≤ e then m <<< e.toNat else m >>> (-e).toNat : Nat)) : ℚ) ≤ m * 2 ^ e ∧
      (m : ℚ) * 2 ^ e < ((if 0 ≤ e then m <<< e.toNat else m >>> (-e).toNat : Nat) : ℚ) + 1 := by
  split_ifs with he
  · have : (((m <<< e.toNat : Nat)) : ℚ) = m * 2 ^ e := by
      rw [Nat.shiftLeft_eq, Nat.cast_mul, Nat.cast_pow, Nat.cast_ofNat, ← two_zpow_natCast,
        Int.toNat_of_nonneg he]
    rw [this]
    exact ⟨le_rfl, lt_add_one _⟩
  · have hk : (2 : ℚ) ^ e = ((2 : ℚ) ^ (-e).toNat)⁻¹ := by
      rw [← two_zpow_natCast, Int.toNat_of_nonneg (by omega), zpow_neg, inv_inv]
    have hpos : (0 : ℚ) < 2 ^ (-e).toNat := by positivity
    have h1 : m >>> (-e).toNat * 2 ^ (-e).toNat ≤ m := by
      rw [Nat.shiftRight_eq_div_pow]; exact Nat.div_mul_le_self _ _
    have h2 : m < (m >>> (-e).toNat + 1) * 2 ^ (-e).toNat := by
      rw [Nat.shiftRight_eq_div_pow, Nat.add_mul, Nat.one_mul]
      exact Nat.lt_div_mul_add (Nat.two_pow_pos _)
    rw [hk, ← div_eq_mul_inv]
    constructor
    · rw [le_div_iff₀ hpos]; exact_mod_cast h1
    · rw [div_lt_iff₀ hpos]; exact_mod_cast h2

/-- `static_cast<int>` of a finite value truncates toward zero. -/
theorem toIntTrunc_eq (hx : x.isInfOrNan = false) :
    x.toIntTrunc = if 0 ≤ x.toRat then ⌊x.toRat⌋ else ⌈x.toRat⌉ := by
  obtain ⟨m, e, hxv, -⟩ := x.toFPValue_of_isInfOrNan_false hx
  obtain ⟨h1, h2⟩ := shift_le_and_lt m e
  have h0 : (0 : ℚ) ≤ m * 2 ^ e := by positivity
  simp only [toIntTrunc, toRat, hxv]
  generalize ((if 0 ≤ e then m <<< e.toNat else m >>> (-e).toNat : Nat)) = t at h1 h2 ⊢
  cases x.getSign
  · simp only [FPValue.toRat_finite_false, if_pos h0, Bool.false_eq_true, if_false]
    exact (Int.floor_eq_iff.mpr ⟨by exact_mod_cast h1, by exact_mod_cast h2⟩).symm
  · simp only [FPValue.toRat_finite_true, if_true]
    split_ifs with hneg
    · have : (m : ℚ) * 2 ^ e = 0 := by linarith
      have : t = 0 := by exact_mod_cast le_antisymm (this ▸ h1) (Nat.cast_nonneg t)
      simp [this, *]
    · exact (Int.ceil_eq_iff.mpr ⟨by push_cast; linarith, by push_cast; linarith⟩).symm

/-- A sum whose first operand is a NaN is a NaN. -/
theorem isNan_add_of_isNan_left {mode : RoundingMode} (hx : x.isNan = true) :
    (add mode x y).isNan = true := by
  unfold add
  rw [(toFPValue_eq_nan_iff x).mpr hx]
  cases y.toFPValue <;> exact isNan_quiet x hx

/-- A sum whose second operand is a NaN is a NaN. -/
theorem isNan_add_of_isNan_right {mode : RoundingMode} (hy : y.isNan = true) :
    (add mode x y).isNan = true := by
  have hy' := (toFPValue_eq_nan_iff y).mpr hy
  unfold add
  rw [hy']
  cases hx : x.toFPValue
  · exact isNan_quiet x ((toFPValue_eq_nan_iff x).mp hx)
  all_goals exact isNan_quiet y hy

/-- A finite value plus an infinity is that infinity. -/
theorem add_inf {mode : RoundingMode} (hx : x.isInfOrNan = false) (s : Bool) :
    add mode x (inf F s) = inf F s := by
  obtain ⟨m, e, hxv, -⟩ := x.toFPValue_of_isInfOrNan_false hx
  simp only [add, hxv, toFPValue_inf]

/-! ### Comparisons -/

theorem signedAt_mul (k : Int) (s : Bool) (m : Nat) (e : Int) (hk : k ≤ e) :
    (signedAt k s m e : ℚ) * 2 ^ k = (FPValue.finite s m e).toRat := by
  have : ((m <<< (e - k).toNat : Nat) : ℚ) * 2 ^ k = m * 2 ^ e := by
    rw [Nat.shiftLeft_eq, Nat.cast_mul, Nat.cast_pow, Nat.cast_ofNat, mul_assoc,
      ← two_zpow_of_le hk]
  cases s <;> simp [signedAt, this]

/-- On finite operands `<=` compares values. -/
theorem le_eq_decide (hx : x.isInfOrNan = false) (hy : y.isInfOrNan = false) :
    x.le y = decide (x.toRat ≤ y.toRat) := by
  obtain ⟨m, e, hxv, -⟩ := x.toFPValue_of_isInfOrNan_false hx
  obtain ⟨n, f, hyv, -⟩ := y.toFPValue_of_isInfOrNan_false hy
  have h : signedAt (min e f) x.getSign m e ≤ signedAt (min e f) y.getSign n f ↔
      (FPValue.finite x.getSign m e).toRat ≤ (FPValue.finite y.getSign n f).toRat := by
    rw [← signedAt_mul (min e f) _ _ _ (min_le_left e f),
      ← signedAt_mul (min e f) _ _ _ (min_le_right e f), mul_le_mul_right (two_zpow_pos _),
      Int.cast_le]
  simp only [le, toRat, hxv, hyv, FPValue.le]
  exact decide_eq_decide.mpr h

theorem lt_eq_decide (hx : x.isInfOrNan = false) (hy : y.isInfOrNan = false) :
    x.lt y = decide (x.toRat < y.toRat) := by
  rw [lt, le_eq_decide hx hy, le_eq_decide hy hx]
  by_cases h : x.toRat < y.toRat
  · simp [h, h.le, not_le.mpr h]
  · simp [h, not_lt.mp h]

/-- `x < 0` reads the sign of a finite nonzero normal pattern. -/
theorem lt_zero_eq_getSign (hx : x.isInfOrNan = false) (hE : x.getUnbiasedExponent ≠ 0) :
    x.lt (zero F false) = x.getSign := by
  have hz := within_zero (F := F) false le_rfl le_rfl
  rw [lt_eq_decide hx hz.isInfOrNan_eq, hz.toRat_eq]
  cases hs : x.getSign
  · exact decide_eq_false (not_lt.mpr (toRat_nonneg hx hs))
  · exact decide_eq_true (lt_of_le_of_ne (toRat_nonpos hx hs) (toRat_ne_zero hx hE))

theorem ne_eq_decide (hx : x.isInfOrNan = false) (hy : y.isInfOrNan = false) :
    x.ne y = decide (x.toRat ≠ y.toRat) := by
  rw [ne, le_eq_decide hx hy, le_eq_decide hy hx]
  by_cases h : x.toRat = y.toRat
  · simp [h]
  · rcases lt_or_gt_of_ne h with h' | h' <;> simp [h, h'.le, not_le.mpr h']

end FPBits

end LlvmLibc.FPUtil
