import Mathlib.Data.Nat.Digits
import Mathlib.Data.BitVec

/-! Integer-to-string conversion (`IntegerToString`, `src/__support/integer_to_string.h`).

`convert<BASE>(val, buffer)` refuses a buffer shorter than `bufsize<BASE, T>()`, and otherwise
writes the numeral of `val` right-aligned into the buffer, one digit per iteration from the least
significant one, then the sign, and returns a view of the written characters. Signed values go
through `intmax_t` and unsigned ones through `uintmax_t`, both 64 bits wide. -/

namespace LlvmLibc.IntegerToString

/-- A base admitted by `convert`'s `enable_if`. -/
structure Base where
  val : Nat
  two_le : 2 ≤ val
  le_36 : val ≤ 36

/-- An integral type admitted by `convert`: its size in bytes and whether it is signed. A value of
    the type is its object representation, a `BitVec (8 * bytes)`. -/
structure IntegralType where
  bytes : Nat
  signed : Bool
deriving DecidableEq, Repr

/-- The integer a value of `T` stands for. -/
def IntegralType.toInt (T : IntegralType) (v : BitVec (8 * T.bytes)) : Int :=
  if T.signed then v.toInt else v.toNat

/-- `cpp::StringView(buffer.data() + start, len)`. -/
structure StringView where
  start : Nat
  len : Nat
deriving DecidableEq, Repr

/-- One conversion: the writes into the buffer, in order, and the view it returns. -/
structure Conversion where
  writes : List (Nat × Char)
  view : StringView
deriving DecidableEq, Repr

/-- The character of digit `digit`: `digit + '0'` below ten, `digit + a - 10` from ten. -/
def digitChar (a : Char) (digit : Nat) : Char :=
  if digit < 10 then Char.ofNat (digit + '0'.toNat) else Char.ofNat (digit + a.toNat - 10)

/-- The loop `for (; uval > 0; --buffptr, uval /= conv_base)` of `convert_uintmax`, which writes
    `buffer[buffptr - 1]`: the final `buffptr` and the writes. -/
def convertLoop (conv_base : Base) (a : Char) (uval buffptr : Nat) (ws : List (Nat × Char)) :
    Nat × List (Nat × Char) :=
  if uval > 0 then
    convertLoop conv_base a (uval / conv_base.val) (buffptr - 1)
      (ws ++ [(buffptr - 1, digitChar a (uval % conv_base.val))])
  else (buffptr, ws)
termination_by uval
decreasing_by exact Nat.div_lt_self ‹_› (by have := conv_base.two_le; omega)

/-- `convert_uintmax` on a buffer of `size` characters. -/
def convertUintmax (uval : BitVec 64) (size : Nat) (lowercase : Bool) (conv_base : Base) :
    Conversion :=
  let a := if lowercase then 'a' else 'A'
  let (buffptr, ws) :=
    if uval.toNat = 0 then (size - 1, [(size - 1, '0')])
    else convertLoop conv_base a uval.toNat size []
  let len := size - buffptr
  ⟨ws, ⟨size - len, len⟩⟩

/-- `convert_intmax`: `uintmax_t(-val)` is the two's complement negation of `val`. -/
def convertIntmax (val : BitVec 64) (size : Nat) (lowercase : Bool) (conv_base : Base) :
    Conversion :=
  if 0 ≤ val.toInt then convertUintmax val size lowercase conv_base
  else
    let str_view := convertUintmax (-val) size lowercase conv_base
    let len := str_view.view.len + 1
    ⟨str_view.writes ++ [(size - len, '-')], ⟨size - len, len⟩⟩

/-- `floor_log_2`: the loop `for (; num > 1; num /= 2) ++i`, with at most `fuel` iterations. -/
def floorLog2Loop : Nat → Nat → Nat → Nat
  | 0, _, i => i
  | fuel + 1, num, i => if num > 1 then floorLog2Loop fuel (num / 2) (i + 1) else i

/-- `floor_log_2`; the loop runs fewer than `num` times. -/
def floorLog2 (num : Nat) : Nat := floorLog2Loop num num 0

/-- `bufsize<BASE, T>()`. -/
def bufsize (BASE : Base) (T : IntegralType) : Nat :=
  let BITS_PER_DIGIT := floorLog2 BASE.val
  let BUFSIZE_COMMON := (T.bytes * 8 + (BITS_PER_DIGIT - 1)) / BITS_PER_DIGIT
  let BUFSIZE_BASE10 := (T.bytes * 5 + 1) / 2
  (if T.signed then 1 else 0) + (if BASE.val = 10 then BUFSIZE_BASE10 else BUFSIZE_COMMON)

/-- `convert<BASE>(val, buffer, lowercase)` on a buffer of `size` characters: `intmax_t(val)` and
    `uintmax_t(val)` convert to 64 bits, sign-extending or truncating. -/
def convert (BASE : Base) (T : IntegralType) (val : BitVec (8 * T.bytes)) (size : Nat)
    (lowercase : Bool) : Option Conversion :=
  if size < bufsize BASE T then none
  else if T.signed then some (convertIntmax (val.signExtend 64) size lowercase BASE)
  else some (convertUintmax (val.setWidth 64) size lowercase BASE)

/-- The bases of the named helpers. -/
def base2 : Base := ⟨2, le_rfl, by norm_num⟩
def base8 : Base := ⟨8, by norm_num, by norm_num⟩
def base10 : Base := ⟨10, by norm_num, by norm_num⟩
def base16 : Base := ⟨16, by norm_num, by norm_num⟩

/-- `dec_bufsize<T>()`. -/
def decBufsize (T : IntegralType) : Nat := bufsize base10 T

/-- `hex_bufsize<T>()`. -/
def hexBufsize (T : IntegralType) : Nat := bufsize base16 T

/-- `oct_bufsize<T>()`. -/
def octBufsize (T : IntegralType) : Nat := bufsize base8 T

/-- `bin_bufsize<T>()`. -/
def binBufsize (T : IntegralType) : Nat := bufsize base2 T

/-- `dec(val, buffer)`. -/
def dec (T : IntegralType) (val : BitVec (8 * T.bytes)) (size : Nat) : Option Conversion :=
  convert base10 T val size true

/-- `hex(val, buffer, lowercase)`. -/
def hex (T : IntegralType) (val : BitVec (8 * T.bytes)) (size : Nat) (lowercase : Bool) :
    Option Conversion :=
  convert base16 T val size lowercase

/-- `oct(val, buffer)`. -/
def oct (T : IntegralType) (val : BitVec (8 * T.bytes)) (size : Nat) : Option Conversion :=
  convert base8 T val size true

/-- `bin(val, buffer)`. -/
def bin (T : IntegralType) (val : BitVec (8 * T.bytes)) (size : Nat) : Option Conversion :=
  convert base2 T val size true

/-! ### The numeral -/

/-- The base-`B` numeral of `v`: `-` when `v < 0`, then the digits of `|v|`, most significant
    first, `0` for zero, the digits `0`-`9` followed by letters in the requested case. -/
def numeral (B : Base) (lowercase : Bool) (v : Int) : List Char :=
  (if v < 0 then ['-'] else []) ++
    if v = 0 then ['0']
    else (Nat.digits B.val v.natAbs).reverse.map (digitChar (if lowercase then 'a' else 'A'))

/-! ### The digit loop -/

/-- A 16-byte unsigned value goes through `uintmax_t`, which keeps its low 64 bits: with a buffer of
    `bufsize<10, unsigned __int128>() = 40` characters, `2^64` is converted to `"0"`, not to its
    numeral `"18446744073709551616"`. -/
theorem convert_uint128_two_pow_64 :
    convert ⟨10, by decide, by decide⟩ ⟨16, false⟩ (BitVec.ofNat 128 (2 ^ 64)) 40 true =
      some ⟨[(39, '0')], ⟨39, 1⟩⟩ ∧
    numeral ⟨10, by decide, by decide⟩ true (IntegralType.toInt ⟨16, false⟩ (BitVec.ofNat 128 (2 ^ 64)))
      = "18446744073709551616".toList := by
  refine ⟨by decide, ?_⟩
  simp [numeral, IntegralType.toInt, digitChar]

end LlvmLibc.IntegerToString
