import Mathlib.Data.BitVec

/-! Counting leading and trailing zero bits (`builtin_wrappers.h`).

`clz<T>` and `ctz<T>` call `__builtin_clz` and `__builtin_ctz` (or their `l` and `ll` forms) for
`unsigned int`, `unsigned long` and `unsigned long long`, an unsigned type of width `w` being
`BitVec w`. The builtins leave their result undefined for `0`. `safe_clz` and `safe_ctz` still call
them, then return the width of the type for `0` through `correct_zero`; `unsafe_clz` and
`unsafe_ctz` return what the builtin returns. Whatever that is for `0`, `safe_clz` counts the zero
bits above the highest set bit and `safe_ctz` those below the lowest one (`safe_counts_spec`). -/

namespace LlvmLibc

variable {w : Nat}

/-! ### The builtins -/

/-- The zero bits of `val` below bit `k` down to its highest set bit, scanned from bit `k - 1`. -/
def clzBelow (val : BitVec w) : Nat → Nat
  | 0 => 0
  | k + 1 => if val.getLsbD k then 0 else clzBelow val k + 1

/-- The zero bits of `val` from bit `i` up to its lowest set bit, over at most `n` bits. -/
def ctzFrom (val : BitVec w) (i : Nat) : Nat → Nat
  | 0 => 0
  | n + 1 => if val.getLsbD i then 0 else ctzFrom val (i + 1) n + 1

/-- Modelled from the spec: `__builtin_clz`, `__builtin_clzl` and `__builtin_clzll` are the
    compiler's, the number of leading 0-bits of `val` from the most significant bit; for `0` the
    result is undefined, here any `undef`. -/
def builtinClz (undef : Nat) (val : BitVec w) : Nat := if val = 0 then undef else clzBelow val w

/-- Modelled from the spec: `__builtin_ctz`, `__builtin_ctzl` and `__builtin_ctzll`, the number of
    trailing 0-bits of `val` from the least significant bit; undefined for `0`. -/
def builtinCtz (undef : Nat) (val : BitVec w) : Nat := if val = 0 then undef else ctzFrom val 0 w

/-! ### The wrappers -/

/-- `correct_zero(val, bits)`: `sizeof(T(0)) * 8` for a zero `val`, else `bits`. -/
def correctZero (val : BitVec w) (bits : Nat) : Nat := if val = 0 then w else bits

/-- `safe_clz(val)`. -/
def safeClz (undef : Nat) (val : BitVec w) : Nat := correctZero val (builtinClz undef val)

/-- `unsafe_clz(val)`. -/
def unsafeClz (undef : Nat) (val : BitVec w) : Nat := builtinClz undef val

/-- `safe_ctz(val)`. -/
def safeCtz (undef : Nat) (val : BitVec w) : Nat := correctZero val (builtinCtz undef val)

/-- `unsafe_ctz(val)`. -/
def unsafeCtz (undef : Nat) (val : BitVec w) : Nat := builtinCtz undef val

/-! ### The scans -/

section Scan
variable (val : BitVec w)

/-- The scan down from bit `k - 1` passes only zero bits and stops at a set bit. -/
theorem clzBelow_spec (k : Nat) : clzBelow val k ≤ k ∧
    (∀ i, k - clzBelow val k ≤ i → i < k → val.getLsbD i = false) ∧
    (clzBelow val k < k → val.getLsbD (k - 1 - clzBelow val k) = true) := by
  induction k with
  | zero => simp [clzBelow]
  | succ k ih =>
    obtain ⟨hle, hzero, hset⟩ := ih
    by_cases hk : val.getLsbD k
    · simp only [clzBelow, hk, if_true]
      exact ⟨Nat.zero_le _, fun i h1 h2 => absurd h2 (by omega), fun _ => by simpa using hk⟩
    · simp only [clzBelow, hk, if_false, Bool.false_eq_true]
      refine ⟨by omega, fun i h1 h2 => ?_, fun h => ?_⟩
      · rcases Nat.lt_or_ge i k with hi | hi
        · exact hzero i (by omega) hi
        · rw [show i = k by omega]; simpa using hk
      · rw [show k + 1 - 1 - (clzBelow val k + 1) = k - 1 - clzBelow val k by omega]
        exact hset (by omega)

/-- The scan up from bit `i` passes only zero bits and stops at a set bit. -/
theorem ctzFrom_spec (n : Nat) : ∀ i, ctzFrom val i n ≤ n ∧
    (∀ j < ctzFrom val i n, val.getLsbD (i + j) = false) ∧
    (ctzFrom val i n < n → val.getLsbD (i + ctzFrom val i n) = true) := by
  induction n with
  | zero => intro i; simp [ctzFrom]
  | succ n ih =>
    intro i
    obtain ⟨hle, hzero, hset⟩ := ih (i + 1)
    by_cases hi : val.getLsbD i
    · simp only [ctzFrom, hi, if_true]
      exact ⟨Nat.zero_le _, fun j hj => absurd hj (Nat.not_lt_zero j), fun _ => by simpa using hi⟩
    · simp only [ctzFrom, hi, if_false, Bool.false_eq_true]
      refine ⟨by omega, fun j hj => ?_, fun h => ?_⟩
      · rcases j with _ | j
        · simpa using hi
        · rw [show i + (j + 1) = i + 1 + j by omega]; exact hzero j (by omega)
      · rw [show i + (ctzFrom val (i + 1) n + 1) = i + 1 + ctzFrom val (i + 1) n by omega]
        exact hset (by omega)

/-- A value whose `w` bits are all zero is `0`. -/
theorem eq_zero_of_getLsbD (h : ∀ i < w, val.getLsbD i = false) : val = 0 :=
  BitVec.eq_of_getLsbD_eq fun i => by simpa using h i i.isLt

theorem clzBelow_lt (h : val ≠ 0) : clzBelow val w < w := by
  obtain ⟨hle, hzero, -⟩ := clzBelow_spec val w
  refine lt_of_le_of_ne hle fun heq => h (eq_zero_of_getLsbD val fun i hi => hzero i ?_ hi)
  omega

theorem ctzFrom_lt (h : val ≠ 0) : ctzFrom val 0 w < w := by
  obtain ⟨hle, hzero, -⟩ := ctzFrom_spec val w 0
  refine lt_of_le_of_ne hle fun heq => h (eq_zero_of_getLsbD val fun i hi => ?_)
  simpa using hzero i (by omega)

end Scan

/-- For every value, and whatever the builtins return for `0`: `safe_clz` is at most the width,
    the bits from the width less `safe_clz` up are zero, and below them lies a set bit; `safe_ctz` is
    at most the width, the bits below it are zero, and at it lies a set bit. For `0` both return the
    width, and on every other value the unsafe forms return what the safe ones do. -/
theorem safe_counts_spec (u v : Nat) (val : BitVec w) :
    safeClz u val ≤ w ∧ (∀ i < w, w - safeClz u val ≤ i → val.getLsbD i = false) ∧
      (val ≠ 0 → val.getLsbD (w - 1 - safeClz u val) = true) ∧
    safeCtz v val ≤ w ∧ (∀ i < safeCtz v val, val.getLsbD i = false) ∧
      (val ≠ 0 → val.getLsbD (safeCtz v val) = true) ∧
    (val = 0 → safeClz u val = w ∧ safeCtz v val = w) ∧
    (val ≠ 0 → unsafeClz u val = safeClz u val ∧ unsafeCtz v val = safeCtz v val) := by
  by_cases h0 : val = 0
  · subst h0
    simp [safeClz, safeCtz, correctZero]
  · obtain ⟨hcle, hczero, hcset⟩ := clzBelow_spec val w
    obtain ⟨htle, htzero, htset⟩ := ctzFrom_spec val w 0
    simp only [safeClz, safeCtz, unsafeClz, unsafeCtz, correctZero, builtinClz, builtinCtz,
      if_neg h0]
    refine ⟨hcle, fun i hi h => hczero i h hi, fun _ => hcset (clzBelow_lt val h0), htle,
      fun j hj => by simpa using htzero j hj, fun _ => by simpa using htset (ctzFrom_lt val h0),
      fun h => absurd h h0, fun _ => ⟨trivial, trivial⟩⟩

example : safeClz 7 (BitVec.ofNat 32 0xf0) = 24 ∧ safeCtz 7 (BitVec.ofNat 32 0xf0) = 4 := by decide

end LlvmLibc
