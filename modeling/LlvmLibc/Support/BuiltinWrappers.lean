import Mathlib.Data.BitVec

/-! Multiprecision add-with-carry and subtract-with-borrow (`builtin_wrappers.h`).

The generic templates derive the carry (borrow) from two wrapping operations and two comparisons.
Where the compiler has `__builtin_addc` (`__builtin_subc`), a specialisation for each standard
unsigned type calls the builtin instead. An unsigned type of width `w` is `BitVec w`. For every
carry-in, the generic template returns the exact carry of `a + b + c` (borrow of `a - b - c`), and
so does the builtin, so the specialisations never change a result. -/

namespace LlvmLibc

/-- `SumCarry<T>`. -/
@[ext]
structure SumCarry (w : Nat) where
  sum : BitVec w
  carry : BitVec w
deriving DecidableEq, Repr

/-- `DiffBorrow<T>`. -/
@[ext]
structure DiffBorrow (w : Nat) where
  diff : BitVec w
  borrow : BitVec w
deriving DecidableEq, Repr

variable {w : Nat}

/-- The generic `add_with_carry`. -/
def addWithCarry (a b carry_in : BitVec w) : SumCarry w :=
  let tmp := a + carry_in
  let sum := b + tmp
  ⟨sum, if sum < b || tmp < a then 1 else 0⟩

/-- The generic `sub_with_borrow`. -/
def subWithBorrow (a b borrow_in : BitVec w) : DiffBorrow w :=
  let tmp := a - b
  let diff := tmp - borrow_in
  ⟨diff, if tmp < diff || a < tmp then 1 else 0⟩

/-- Modelled from the spec: `__builtin_addcb`, `__builtin_addcs`, `__builtin_addc`,
    `__builtin_addcl` and `__builtin_addcll` are the compiler's, not part of the sources. As the
    clang page the sources cite describes them, and as clang lowers them, the builtin adds `x + y`,
    then adds `carryin`, each with wraparound, and reports a carry when either addition overflows. -/
def builtinAddc (x y carryin : BitVec w) : SumCarry w :=
  let s := x + y
  ⟨s + carryin, if 2 ^ w ≤ x.toNat + y.toNat || 2 ^ w ≤ s.toNat + carryin.toNat then 1 else 0⟩

/-- Modelled from the spec: the `__builtin_subc*` family, which subtracts `y`, then `borrowin`,
    each with wraparound, and reports a borrow when either subtraction wraps. -/
def builtinSubc (x y borrowin : BitVec w) : DiffBorrow w :=
  let d := x - y
  ⟨d - borrowin, if x.toNat < y.toNat || d.toNat < borrowin.toNat then 1 else 0⟩

/-! ### Wraparound arithmetic -/

theorem toNat_add_eq (x y : BitVec w) :
    (x + y).toNat = if x.toNat + y.toNat < 2 ^ w then x.toNat + y.toNat else x.toNat + y.toNat - 2 ^ w := by
  have := x.isLt
  have := y.isLt
  rw [BitVec.toNat_add]
  split_ifs with h
  · exact Nat.mod_eq_of_lt h
  · rw [Nat.mod_eq_sub_mod (by omega), Nat.mod_eq_of_lt (by omega)]

theorem toNat_sub_eq (x y : BitVec w) :
    (x - y).toNat = if y.toNat ≤ x.toNat then x.toNat - y.toNat else 2 ^ w + x.toNat - y.toNat := by
  have := x.isLt
  have := y.isLt
  rw [BitVec.toNat_sub]
  split_ifs with h
  · rw [show 2 ^ w - y.toNat + x.toNat = x.toNat - y.toNat + 2 ^ w by omega, Nat.add_mod_right,
      Nat.mod_eq_of_lt (by omega)]
  · rw [Nat.mod_eq_of_lt (by omega)]
    omega

theorem toNat_ite_one_zero (p : Prop) [Decidable p] :
    (if p then (1 : BitVec w) else 0).toNat = if p ∧ 0 < w then 1 else 0 := by
  by_cases hp : p <;> rcases Nat.eq_zero_or_pos w with rfl | hw <;> simp [*, Nat.one_lt_two_pow_iff]

/-! ### The generic templates -/

section Generic
variable (a b c : BitVec w)

theorem addWithCarry_sum : (addWithCarry a b c).sum.toNat = (a.toNat + b.toNat + c.toNat) % 2 ^ w := by
  simp only [addWithCarry, BitVec.toNat_add, Nat.add_mod_mod]
  rw [Nat.add_comm b.toNat, Nat.add_assoc, Nat.add_comm c.toNat, Nat.add_assoc]

/-- The carry is set exactly when `a + b + c` reaches `2^w`: either wrapping addition overflows. -/
theorem addWithCarry_carry :
    (addWithCarry a b c).carry = if 2 ^ w ≤ a.toNat + b.toNat + c.toNat then 1 else 0 := by
  have := a.isLt
  have := b.isLt
  have := c.isLt
  simp only [addWithCarry, BitVec.lt_def, toNat_add_eq]
  split_ifs <;> simp_all <;> omega

theorem subWithBorrow_diff :
    ((subWithBorrow a b c).diff.toNat : Int) = ((a.toNat : Int) - b.toNat - c.toNat) % 2 ^ w := by
  have := b.isLt
  have := c.isLt
  have h : (subWithBorrow a b c).diff.toNat = (a.toNat + 2 * 2 ^ w - b.toNat - c.toNat) % 2 ^ w := by
    simp only [subWithBorrow, BitVec.toNat_sub, Nat.add_mod_mod]
    congr 1
    omega
  rw [h, Int.natCast_mod, Int.natCast_pow,
    show ((a.toNat + 2 * 2 ^ w - b.toNat - c.toNat : Nat) : Int)
      = (a.toNat : Int) - b.toNat - c.toNat + 2 * (2 : Nat) ^ w by rw [← Int.natCast_pow]; omega,
    Int.add_mul_emod_self]
  rfl

/-- The borrow is set exactly when `b + c` exceeds `a`: either wrapping subtraction wraps. -/
theorem subWithBorrow_borrow :
    (subWithBorrow a b c).borrow = if a.toNat < b.toNat + c.toNat then 1 else 0 := by
  have := a.isLt
  have := b.isLt
  have := c.isLt
  simp only [subWithBorrow, BitVec.lt_def, toNat_sub_eq]
  split_ifs <;> simp_all <;> omega

/-- With a carry-in of `0` or `1`, sum and carry are the exact sum. -/
theorem addWithCarry_exact (h : c.toNat ≤ 1) :
    (addWithCarry a b c).sum.toNat + 2 ^ w * (addWithCarry a b c).carry.toNat
      = a.toNat + b.toNat + c.toNat := by
  have := a.isLt
  have := b.isLt
  rw [addWithCarry_sum, addWithCarry_carry, toNat_ite_one_zero]
  by_cases hc : 2 ^ w ≤ a.toNat + b.toNat + c.toNat
  · have hw : 0 < w := Nat.pos_of_ne_zero fun h0 => by subst h0; simp at *; omega
    rw [Nat.mod_eq_sub_mod hc, Nat.mod_eq_of_lt (by omega), if_pos ⟨hc, hw⟩]
    omega
  · rw [Nat.mod_eq_of_lt (by omega), if_neg (fun h => hc h.1)]
    omega

/-- With a borrow-in of `0` or `1`, difference and borrow are the exact difference. -/
theorem subWithBorrow_exact (h : c.toNat ≤ 1) :
    ((subWithBorrow a b c).diff.toNat : Int) - 2 ^ w * (subWithBorrow a b c).borrow.toNat
      = (a.toNat : Int) - b.toNat - c.toNat := by
  have := a.isLt
  have := b.isLt
  have hd := subWithBorrow_diff a b c
  have : ((2 ^ w : Nat) : Int) = (2 : Int) ^ w := Int.natCast_pow 2 w
  rw [subWithBorrow_borrow, toNat_ite_one_zero]
  by_cases hc : a.toNat < b.toNat + c.toNat
  · have hw : 0 < w := Nat.pos_of_ne_zero fun h0 => by subst h0; simp at *; omega
    rw [if_pos ⟨hc, hw⟩, hd, ← Int.add_emod_self, Int.emod_eq_of_lt (by omega) (by omega)]
    omega
  · rw [if_neg (fun h => hc h.1), hd, Int.emod_eq_of_lt (by omega) (by omega)]
    omega

end Generic

/-! ### The builtin specialisations -/

section Builtin
variable (a b c : BitVec w)

/-- `__builtin_addc` returns what the generic template returns, carry-in `c` arbitrary: the two
    evaluate `(a + b) + c` and `b + (a + c)`, and both carries are that of `a + b + c`. -/
theorem builtinAddc_eq : builtinAddc a b c = addWithCarry a b c := by
  have := a.isLt
  have := b.isLt
  ext1
  · simp only [builtinAddc, addWithCarry]
    ac_rfl
  · rw [addWithCarry_carry]
    simp only [builtinAddc, toNat_add_eq]
    split_ifs <;> simp_all <;> omega

theorem builtinSubc_eq : builtinSubc a b c = subWithBorrow a b c := by
  have := a.isLt
  have := b.isLt
  ext1
  · rfl
  · rw [subWithBorrow_borrow]
    simp only [builtinSubc, toNat_sub_eq]
    split_ifs <;> simp_all <;> omega

end Builtin

/-- Both templates are exact for every carry-in: the sum is `a + b + c` modulo `2^w` and the carry
    is set exactly when `a + b + c` reaches `2^w`; the difference is `a - b - c` modulo `2^w` and the
    borrow is set exactly when `b + c` exceeds `a`. For a carry-in of `0` or `1` the pair is the exact
    sum (difference), and the builtin specialisations return the same pairs as the templates. -/
theorem addWithCarry_subWithBorrow_exact (a b c : BitVec w) :
    (addWithCarry a b c).sum.toNat = (a.toNat + b.toNat + c.toNat) % 2 ^ w ∧
    (addWithCarry a b c).carry = (if 2 ^ w ≤ a.toNat + b.toNat + c.toNat then 1 else 0) ∧
    ((subWithBorrow a b c).diff.toNat : Int) = ((a.toNat : Int) - b.toNat - c.toNat) % 2 ^ w ∧
    (subWithBorrow a b c).borrow = (if a.toNat < b.toNat + c.toNat then 1 else 0) ∧
    (c.toNat ≤ 1 →
      (addWithCarry a b c).sum.toNat + 2 ^ w * (addWithCarry a b c).carry.toNat
        = a.toNat + b.toNat + c.toNat ∧
      ((subWithBorrow a b c).diff.toNat : Int) - 2 ^ w * (subWithBorrow a b c).borrow.toNat
        = (a.toNat : Int) - b.toNat - c.toNat) ∧
    builtinAddc a b c = addWithCarry a b c ∧ builtinSubc a b c = subWithBorrow a b c :=
  ⟨addWithCarry_sum a b c, addWithCarry_carry a b c, subWithBorrow_diff a b c,
    subWithBorrow_borrow a b c, fun h => ⟨addWithCarry_exact a b c h, subWithBorrow_exact a b c h⟩,
    builtinAddc_eq a b c, builtinSubc_eq a b c⟩

end LlvmLibc
