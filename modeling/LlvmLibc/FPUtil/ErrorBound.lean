import LlvmLibc.FPUtil.CorrectRounding
import Mathlib.Data.Int.Log

/-! Error bounds of the rounded operations and of Horner's scheme.

Below `2^maxExponent`, every value lies between two finite values one quantum apart, and that
quantum is at most `epsilon * |v| + 2^minQuantum`, with `epsilon = 2^-mantissaWidth`
(`exists_bracket`). An operation that rounds its exact result once lands between the same two
values, so in every rounding mode it is within that bound of the exact result (`Near`, `add_near`,
`sub_near`, `mul_near`).

`polyeval` rounds twice a coefficient. One step of Horner's scheme on an operand already within `e`
of its exact value adds the errors of its two roundings to `|x| * e` (`multiplyAdd_near`); after `k`
steps the computed polynomial is within `((1 + epsilon)^(2k) - 1)` times the polynomial of the
absolute values, plus `4^k - 1` quanta, of the exact one (`polyeval_near`). -/

namespace LlvmLibc.FPUtil

namespace FloatProperties
variable {F : FloatProperties}

/-- The relative error of one rounding in any mode, `2^-mantissaWidth` (the gap above `1`). -/
def epsilon (F : FloatProperties) : ℚ := 1 / 2 ^ F.mantissaWidth

theorem epsilon_pos (F : FloatProperties) : 0 < F.epsilon := by unfold epsilon; positivity

theorem epsilon_le_one (F : FloatProperties) : F.epsilon ≤ 1 := by
  unfold epsilon; rw [div_le_one (by positivity)]; exact one_le_pow₀ one_le_two

theorem minQuantum_add_mantissaWidth_lt (F : FloatProperties) : F.minQuantum + F.mantissaWidth < F.maxExponent := by
  have := F.one_le_exponentBias
  simp only [minQuantum, maxExponent]; omega

/-- `m * 2^q` is finite up to `|m| = 2^(mantissaWidth + 1)`, which is `2^mantissaWidth` quanta of
    `2^(q + 1)`. -/
theorem finiteValue_int_mul_of_le {m q : Int} (hq : F.minQuantum ≤ q)
    (hm : m.natAbs ≤ 2 ^ (F.mantissaWidth + 1)) (hmax : q + F.mantissaWidth < F.maxExponent) :
    F.FiniteValue (m * 2 ^ q) := by
  rcases hm.lt_or_eq with hm | hm
  · exact finiteValue_int_mul hq hm hmax.le
  · rw [pow_succ] at hm
    have := Nat.one_le_two_pow (n := F.mantissaWidth)
    have hm2 : m = 2 * (m / 2) := by omega
    have := finiteValue_int_mul (F := F) (m := m / 2) (q := q + 1) (by omega)
      (by rw [pow_succ]; omega) (by omega)
    convert this using 1
    rw [zpow_add_one₀ two_ne_zero]; nth_rewrite 1 [hm2]; push_cast; ring

/-- Below `2^maxExponent`, `v` lies between two finite values at most
    `epsilon * |v| + 2^minQuantum` apart: the multiples of the quantum of its binade around it. -/
theorem exists_bracket {v : ℚ} (hv : |v| < 2 ^ F.maxExponent) :
    ∃ lo hi : ℚ, F.FiniteValue lo ∧ F.FiniteValue hi ∧ lo ≤ v ∧ v ≤ hi ∧
      hi - lo ≤ F.epsilon * |v| + 2 ^ F.minQuantum := by
  rcases eq_or_ne v 0 with rfl | hv0
  · exact ⟨0, 0, finiteValue_zero, finiteValue_zero, le_rfl, le_rfl, by simp [(two_zpow_pos _).le]⟩
  set E := Int.log 2 |v|
  have hE1 : (2 : ℚ) ^ E ≤ |v| := by
    simpa using Int.zpow_log_le_self (b := 2) one_lt_two (abs_pos.mpr hv0)
  have hE2 : |v| < 2 ^ (E + 1) := by simpa using Int.lt_zpow_succ_log_self (b := 2) one_lt_two |v|
  have hEmax : E < F.maxExponent := by
    by_contra h; exact absurd (hE1.trans_lt hv) (not_lt.mpr (two_zpow_le (not_lt.mp h)))
  set q := max (E - F.mantissaWidth) F.minQuantum
  have hq := two_zpow_pos q
  set m := ⌊v / 2 ^ q⌋
  have hm1 : (m : ℚ) * 2 ^ q ≤ v := (le_div_iff₀ hq).mp (Int.floor_le _)
  have hm2 : v < (m + 1) * 2 ^ q := (div_lt_iff₀ hq).mp (Int.lt_floor_add_one _)
  -- the quotient lies strictly between `-2^(mantissaWidth + 1)` and `2^(mantissaWidth + 1)`
  obtain ⟨N, hN⟩ : ∃ N : Nat, N = 2 ^ (F.mantissaWidth + 1) := ⟨_, rfl⟩
  have hvq : |v / 2 ^ q| < N := by
    rw [abs_div, abs_of_pos hq, div_lt_iff₀ hq, hN]
    calc |v| < 2 ^ (E + 1) := hE2
      _ ≤ 2 ^ (((F.mantissaWidth + 1 : Nat) : Int) + q) := two_zpow_le (by omega)
      _ = _ := by rw [two_zpow_add, two_zpow_natCast]; push_cast; rfl
  obtain ⟨hlo, hhi⟩ := abs_lt.mp hvq
  have hmlo : -(N : Int) ≤ m := Int.le_floor.mpr (by push_cast; exact hlo.le)
  have hmhi : m < N := Int.floor_lt.mpr (by exact_mod_cast hhi)
  have hqmax : q + F.mantissaWidth < F.maxExponent := by
    have := F.minQuantum_add_mantissaWidth_lt; omega
  refine ⟨m * 2 ^ q, ((m + 1 : Int) : ℚ) * 2 ^ q,
    finiteValue_int_mul_of_le (le_max_right _ _) (hN ▸ by omega) hqmax,
    finiteValue_int_mul_of_le (le_max_right _ _) (hN ▸ by omega) hqmax, hm1,
    by push_cast; exact hm2.le, ?_⟩
  have hgap : ((m + 1 : Int) : ℚ) * 2 ^ q - m * 2 ^ q = 2 ^ q := by push_cast; ring
  rw [hgap]
  rcases le_total (E - F.mantissaWidth) F.minQuantum with h | h
  · rw [show q = F.minQuantum from max_eq_right h]
    linarith [mul_nonneg F.epsilon_pos.le (abs_nonneg v)]
  · rw [show q = E - F.mantissaWidth from max_eq_left h, zpow_sub₀ two_ne_zero, two_zpow_natCast,
      div_eq_mul_one_div, mul_comm]
    have := mul_le_mul_of_nonneg_left hE1 F.epsilon_pos.le
    unfold epsilon at this ⊢
    linarith [two_zpow_pos F.minQuantum]

end FloatProperties

namespace FPBits
variable {F : FloatProperties} (mode : RoundingMode) {x y z : FPBits F}

/-- `x` is a finite pattern within `e` of `v`. -/
structure Near (x : FPBits F) (v e : ℚ) : Prop where
  isInfOrNan_eq : x.isInfOrNan = false
  abs_sub_le : |x.toRat - v| ≤ e

theorem Near.mono {v e e' : ℚ} (h : x.Near v e) (he : e ≤ e') : x.Near v e' :=
  ⟨h.isInfOrNan_eq, h.abs_sub_le.trans he⟩

/-- A pattern in a bracket of `v` is within the width of the bracket of `v`. -/
theorem Within.near {lo hi v : ℚ} (h : x.Within lo hi) (h1 : lo ≤ v) (h2 : v ≤ hi) :
    x.Near v (hi - lo) :=
  ⟨h.isInfOrNan_eq, abs_sub_le_iff.mpr ⟨by linarith [h.toRat_le], by linarith [h.le_toRat]⟩⟩

theorem Near.abs_le {v e : ℚ} (h : x.Near v e) : |x.toRat| ≤ |v| + e := by
  have := abs_sub_abs_le_abs_sub x.toRat v
  linarith [h.abs_sub_le]

section Ops
variable (hx : x.isInfOrNan = false) (hy : y.isInfOrNan = false)
include hx hy

/-- `x + y` is within `epsilon * |x + y| + 2^minQuantum` of `x + y`. -/
theorem add_near (hv : |x.toRat + y.toRat| < 2 ^ F.maxExponent) :
    (add mode x y).Near (x.toRat + y.toRat)
      (F.epsilon * |x.toRat + y.toRat| + 2 ^ F.minQuantum) := by
  obtain ⟨lo, hi, hlo, hhi, h1, h2, hw⟩ := FloatProperties.exists_bracket hv
  exact ((add_within mode hx hy hlo hhi h1 h2).near h1 h2).mono hw

/-- `x * y` is within `epsilon * |x * y| + 2^minQuantum` of `x * y`. -/
theorem mul_near (hv : |x.toRat * y.toRat| < 2 ^ F.maxExponent) :
    (mul mode x y).Near (x.toRat * y.toRat)
      (F.epsilon * |x.toRat * y.toRat| + 2 ^ F.minQuantum) := by
  obtain ⟨lo, hi, hlo, hhi, h1, h2, hw⟩ := FloatProperties.exists_bracket hv
  exact ((mul_within mode hx hy hlo hhi h1 h2).near h1 h2).mono hw

/-- `x - y` is within `epsilon * |x - y| + 2^minQuantum` of `x - y`. -/
theorem sub_near (hv : |x.toRat - y.toRat| < 2 ^ F.maxExponent) :
    (sub mode x y).Near (x.toRat - y.toRat)
      (F.epsilon * |x.toRat - y.toRat| + 2 ^ F.minQuantum) := by
  obtain ⟨lo, hi, hlo, hhi, h1, h2, hw⟩ := FloatProperties.exists_bracket hv
  exact ((sub_within mode hx hy hlo hhi h1 h2).near h1 h2).mono hw

end Ops

/-- One step of Horner's scheme: `x * y + z` rounded twice, where `y` is within `e` of `Y`, is
    within `|x| * e` plus the errors of the two roundings of `x * Y + z`. -/
theorem multiplyAdd_near {X Y B e : ℚ} (hx : x.isInfOrNan = false) (hX : |x.toRat| ≤ X)
    (hy : y.Near Y e) (hY : |Y| ≤ B) (hz : z.isInfOrNan = false)
    (hrange : (1 + F.epsilon) * (X * (B + e)) + 2 ^ F.minQuantum + |z.toRat| < 2 ^ F.maxExponent) :
    (multiplyAdd mode x y z).Near (x.toRat * Y + z.toRat)
      (X * e + (F.epsilon * (X * (B + e)) + 2 ^ F.minQuantum) +
        (F.epsilon * ((1 + F.epsilon) * (X * (B + e)) + 2 ^ F.minQuantum + |z.toRat|) +
          2 ^ F.minQuantum)) := by
  have hε := F.epsilon_pos
  have hη := two_zpow_pos F.minQuantum
  have hxy : |x.toRat * y.toRat| ≤ X * (B + e) := by
    rw [abs_mul]
    exact mul_le_mul hX (hy.abs_le.trans (by linarith)) (abs_nonneg _) ((abs_nonneg _).trans hX)
  have hM0 : 0 ≤ X * (B + e) := (abs_nonneg _).trans hxy
  have hm := mul_near mode hx hy.isInfOrNan_eq (hxy.trans_lt (by
    have := mul_nonneg hε.le hM0
    linarith [abs_nonneg z.toRat]))
  have hmz : |(mul mode x y).toRat + z.toRat| ≤
      (1 + F.epsilon) * (X * (B + e)) + 2 ^ F.minQuantum + |z.toRat| := by
    have := hm.abs_le
    have := abs_add ((mul mode x y).toRat) z.toRat
    have := mul_le_mul_of_nonneg_left hxy hε.le
    linarith
  have hs := add_near mode hm.isInfOrNan_eq hz (hmz.trans_lt hrange)
  refine ⟨hs.isInfOrNan_eq, ?_⟩
  have hxe : |x.toRat * (y.toRat - Y)| ≤ X * e := by
    rw [abs_mul]; exact mul_le_mul hX hy.abs_sub_le (abs_nonneg _) ((abs_nonneg _).trans hX)
  have hsplit : (multiplyAdd mode x y z).toRat - (x.toRat * Y + z.toRat) =
      ((add mode (mul mode x y) z).toRat - ((mul mode x y).toRat + z.toRat)) +
        ((mul mode x y).toRat - x.toRat * y.toRat) + x.toRat * (y.toRat - Y) := by
    rw [multiplyAdd]; ring
  rw [hsplit]
  calc _ ≤ |(add mode (mul mode x y) z).toRat - ((mul mode x y).toRat + z.toRat)| +
        |(mul mode x y).toRat - x.toRat * y.toRat| + |x.toRat * (y.toRat - Y)| :=
        abs_add_three _ _ _
    _ ≤ _ := by
      have := hs.abs_sub_le
      have := hm.abs_sub_le
      have h1 : F.epsilon * |x.toRat * y.toRat| ≤ F.epsilon * (X * (B + e)) :=
        mul_le_mul_of_nonneg_left hxy hε.le
      have h2 : F.epsilon * |(mul mode x y).toRat + z.toRat| ≤
          F.epsilon * ((1 + F.epsilon) * (X * (B + e)) + 2 ^ F.minQuantum + |z.toRat|) :=
        mul_le_mul_of_nonneg_left hmz hε.le
      linarith

end FPBits

/-! ### Horner's scheme -/

/-- Horner's scheme over exact values, in the order `polyeval` evaluates it. -/
def horner (t : ℚ) : List ℚ → ℚ
  | [] => 0
  | [a] => a
  | a :: as => t * horner t as + a

theorem horner_cons_cons (t a b : ℚ) (bs : List ℚ) :
    horner t (a :: b :: bs) = t * horner t (b :: bs) + a := rfl

section Horner
variable {t X : ℚ}

theorem horner_abs_nonneg (hX : 0 ≤ X) (cs : List ℚ) : 0 ≤ horner X (cs.map abs) := by
  match cs with
  | [] => exact le_rfl
  | [a] => exact abs_nonneg a
  | a :: b :: bs =>
    have := horner_abs_nonneg hX (b :: bs)
    simp only [List.map_cons, horner_cons_cons] at this ⊢
    positivity

/-- The polynomial of the absolute values bounds the polynomial at every point no farther from `0`
    than its argument. -/
theorem abs_horner_le (h : |t| ≤ X) (cs : List ℚ) : |horner t cs| ≤ horner X (cs.map abs) := by
  match cs with
  | [] => simp [horner]
  | [a] => exact le_rfl
  | a :: b :: bs =>
    have ih := abs_horner_le h (b :: bs)
    simp only [List.map_cons, horner_cons_cons] at ih ⊢
    calc |t * horner t (b :: bs) + a| ≤ |t| * |horner t (b :: bs)| + |a| := by
          rw [← abs_mul]; exact abs_add _ _
      _ ≤ X * horner X (|b| :: bs.map abs) + |a| := by
          gcongr; exact (abs_nonneg t).trans h

/-- On `[0, 1]`, the polynomial of the absolute values is at most their sum. -/
theorem horner_abs_le_sum (hX0 : 0 ≤ X) (hX1 : X ≤ 1) (cs : List ℚ) :
    horner X (cs.map abs) ≤ (cs.map abs).sum := by
  match cs with
  | [] => exact le_rfl
  | [a] => simp [horner]
  | a :: b :: bs =>
    have ih := horner_abs_le_sum hX0 hX1 (b :: bs)
    have h0 := horner_abs_nonneg hX0 (b :: bs)
    simp only [List.map_cons, List.sum_cons, horner_cons_cons] at ih h0 ⊢
    linarith [mul_le_of_le_one_left h0 hX1]

end Horner

namespace FPBits
variable {F : FloatProperties} (mode : RoundingMode) {x : FPBits F}

/-- Horner's scheme as `polyeval` computes it: after `k` steps, `k` the number of coefficients
    after the first, the result is within `((1 + epsilon)^(2k) - 1)` times the polynomial of the
    absolute values, plus `4^k - 1` quanta, of the exact polynomial; on a point `|x| ≤ X ≤ 1`, with
    no intermediate result near the overflow threshold. -/
theorem polyeval_near (hx : x.isInfOrNan = false) {X : ℚ} (hX : |x.toRat| ≤ X) (hX1 : X ≤ 1)
    (a : FPBits F) (as : List (FPBits F)) (hcs : ∀ c ∈ a :: as, c.isInfOrNan = false)
    (hrange : (1 + F.epsilon) ^ (2 * as.length + 2) * ((a :: as).map fun c => |c.toRat|).sum +
      4 ^ (as.length + 1) * 2 ^ F.minQuantum < 2 ^ F.maxExponent) :
    (polyeval mode x (a :: as)).Near (horner x.toRat ((a :: as).map toRat))
      (((1 + F.epsilon) ^ (2 * as.length) - 1) * horner X ((a :: as).map fun c => |c.toRat|) +
        (4 ^ as.length - 1) * 2 ^ F.minQuantum) := by
  induction as generalizing a with
  | nil =>
    exact ⟨hcs a (List.mem_singleton_self a), by simp [polyeval, horner]⟩
  | cons b bs ih =>
    simp only [List.length_cons] at hrange ⊢
    have hε := F.epsilon_pos
    have hε1 := F.epsilon_le_one
    have hη := two_zpow_pos F.minQuantum
    have hX0 : 0 ≤ X := (abs_nonneg _).trans hX
    set G := (1 + F.epsilon) ^ (2 * bs.length)
    set A := horner X ((b :: bs).map fun c => |c.toRat|)
    set S := ((b :: bs).map fun c => |c.toRat|).sum
    have hG : 1 ≤ G := one_le_pow₀ (by linarith)
    have hA : 0 ≤ A := by simpa [A, List.map_map] using horner_abs_nonneg hX0 ((b :: bs).map toRat)
    have hAS : A ≤ S := by
      simpa [A, S, List.map_map] using horner_abs_le_sum hX0 hX1 ((b :: bs).map toRat)
    have h4 : (4 : ℚ) ^ bs.length ≥ 1 := one_le_pow₀ (by norm_num)
    have hG2 : (1 + F.epsilon) ^ (2 * (b :: bs).length) = G * (1 + F.epsilon) ^ 2 := by
      simp only [List.length_cons, G]; ring
    -- the tail, evaluated first, and a bound on its exact value
    have hsum : ((a :: b :: bs).map fun c => |c.toRat|).sum = |a.toRat| + S := by simp [S]
    have hS0 : 0 ≤ S := hAS.trans' hA
    have hrange' : (1 + F.epsilon) ^ (2 * bs.length + 2) * S + 4 ^ (bs.length + 1) * 2 ^ F.minQuantum
        < 2 ^ F.maxExponent := by
      refine lt_of_le_of_lt ?_ hrange
      rw [hsum]
      have : (1 + F.epsilon) ^ (2 * bs.length + 2) * S ≤ (1 + F.epsilon) ^ (2 * (bs.length + 1) + 2) * S :=
        mul_le_mul_of_nonneg_right (pow_le_pow_right₀ (by linarith) (by omega)) hS0
      have : (4 : ℚ) ^ (bs.length + 1) * 2 ^ F.minQuantum ≤ 4 ^ (bs.length + 1 + 1) * 2 ^ F.minQuantum :=
        mul_le_mul_of_nonneg_right (pow_le_pow_right₀ (by norm_num) (by omega)) hη.le
      have : 0 ≤ (1 + F.epsilon) ^ (2 * (bs.length + 1) + 2) * |a.toRat| := by positivity
      linarith
    have htail := ih b (fun c hc => hcs c (List.mem_cons_of_mem a hc)) hrange'
    have hP : |horner x.toRat ((b :: bs).map toRat)| ≤ A := by
      simpa [A, List.map_map] using abs_horner_le hX ((b :: bs).map toRat)
    -- the tail is within `e` of its exact value, so its product with `x` is at most `G * A + H η`
    set H := (4 : ℚ) ^ bs.length - 1
    set e := (G - 1) * A + H * 2 ^ F.minQuantum
    have hH : 0 ≤ H := sub_nonneg.mpr h4
    have hXAe : X * (A + e) ≤ G * A + H * 2 ^ F.minQuantum := by
      rw [show A + e = G * A + H * 2 ^ F.minQuantum by simp only [e]; ring]
      exact mul_le_of_le_one_left (add_nonneg (mul_nonneg (by linarith) hA) (mul_nonneg hH hη.le)) hX1
    have hε2 : (1 + F.epsilon) ^ 2 ≤ 4 :=
      (pow_le_pow_left₀ (by linarith) (by linarith : 1 + F.epsilon ≤ 2) 2).trans_eq (by norm_num)
    have hstep := multiplyAdd_near mode hx hX htail hP (hcs a (List.mem_cons_self a _)) (by
      have hG4 : (1 + F.epsilon) ^ (2 * (bs.length + 1) + 2) = G * (1 + F.epsilon) ^ 4 := by
        show _ = (1 + F.epsilon) ^ (2 * bs.length) * _; ring
      have h16 : (4 : ℚ) ^ (bs.length + 1 + 1) = 16 * (H + 1) := by
        show _ = 16 * ((4 : ℚ) ^ bs.length - 1 + 1); ring
      rw [hsum, hG4, h16] at hrange
      have hq1 : 1 + F.epsilon ≤ (1 + F.epsilon) ^ 4 := le_self_pow₀ (by linarith) (by norm_num)
      have hK4 : 1 ≤ G * (1 + F.epsilon) ^ 4 := one_le_mul_of_one_le_of_one_le hG (one_le_pow₀ (by linarith))
      have t1 : (1 + F.epsilon) * (X * (A + e)) ≤ (1 + F.epsilon) * (G * A + H * 2 ^ F.minQuantum) :=
        mul_le_mul_of_nonneg_left hXAe (by linarith)
      have t2 : (1 + F.epsilon) * (G * A) ≤ G * (1 + F.epsilon) ^ 4 * S := by
        calc (1 + F.epsilon) * (G * A) = G * ((1 + F.epsilon) * A) := by ring
          _ ≤ G * ((1 + F.epsilon) ^ 4 * S) := by gcongr
          _ = _ := by ring
      have t3 : |a.toRat| ≤ G * (1 + F.epsilon) ^ 4 * |a.toRat| := le_mul_of_one_le_left (abs_nonneg _) hK4
      have t4 : (1 + F.epsilon) * (H * 2 ^ F.minQuantum) ≤ 2 * (H * 2 ^ F.minQuantum) :=
        mul_le_mul_of_nonneg_right (by linarith) (by positivity)
      linarith [mul_nonneg hH hη.le])
    refine hstep.mono ?_
    -- `(1 + ε)^2` more relative error on the tail, `ε` on the coefficient, at most `4 H + 3` quanta
    set K := G * (1 + F.epsilon) ^ 2
    have hK : (1 + F.epsilon) ^ (2 * (bs.length + 1)) = K := by
      show _ = (1 + F.epsilon) ^ (2 * bs.length) * _; ring
    have h4 : (4 : ℚ) ^ (bs.length + 1) - 1 = 4 * H + 3 := by
      show _ = 4 * ((4 : ℚ) ^ bs.length - 1) + 3; ring
    have hεK : F.epsilon ≤ K - 1 := by
      have : 1 + F.epsilon ≤ (1 + F.epsilon) ^ 2 := le_self_pow₀ (by linarith) (by norm_num)
      have : (1 + F.epsilon) ^ 2 ≤ K := le_mul_of_one_le_left (by positivity) hG
      linarith
    have hlhs : X * e + (F.epsilon * (X * (A + e)) + 2 ^ F.minQuantum) +
        (F.epsilon * ((1 + F.epsilon) * (X * (A + e)) + 2 ^ F.minQuantum + |a.toRat|) +
          2 ^ F.minQuantum) = (K - 1) * (X * A) + (1 + F.epsilon) ^ 2 * X * (H * 2 ^ F.minQuantum) +
        (2 + F.epsilon) * 2 ^ F.minQuantum + F.epsilon * |a.toRat| := by ring
    have u1 : F.epsilon * |a.toRat| ≤ (K - 1) * |a.toRat| := mul_le_mul_of_nonneg_right hεK (abs_nonneg _)
    have u2 : (1 + F.epsilon) ^ 2 * X * (H * 2 ^ F.minQuantum) ≤ 4 * (H * 2 ^ F.minQuantum) :=
      mul_le_mul_of_nonneg_right ((mul_le_mul hε2 hX1 hX0 (by norm_num)).trans_eq (mul_one 4))
        (by positivity)
    have hrhs : ((1 + F.epsilon) ^ (2 * (bs.length + 1)) - 1) *
          horner X ((a :: b :: bs).map fun c => |c.toRat|) +
        ((4 : ℚ) ^ (bs.length + 1) - 1) * 2 ^ F.minQuantum =
        (K - 1) * (X * A + |a.toRat|) + (4 * H + 3) * 2 ^ F.minQuantum := by
      rw [hK, h4]; rfl
    linarith [mul_le_of_le_one_left hη.le hε1]

end FPBits

end LlvmLibc.FPUtil
