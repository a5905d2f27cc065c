import Mathlib.Algebra.Ring.Nat
import Mathlib.Data.Nat.Bitwise

/-!
# Block arithmetic

The functions of `include/common/arithmetic/arithmetic.hpp` that turn a file offset into a chunk
id and a position in the chunk, and the constant `gkfs::config::rpc::chunksize` they are called
with. Their arguments and results are 64 bit words; a word is a natural number here, and the
operations that can leave the word range reduce it (`u64`, `sub64`). At a power of two the bit
operations are division and remainder (`blockIndex_two_pow`, `blockOverrun_two_pow`,
`blockUnderrun_two_pow`, `isAligned_two_pow`), so at the chunk size they are `n / chunksize` and
`n % chunksize`.
-/

namespace GekkoFS

/-- `gkfs::config::rpc::chunksize` (`include/config.hpp`), in bytes. -/
def chunksize : Nat := 524288

/-- A value reduced to a 64 bit word. -/
def u64 (n : Nat) : Nat := n % 2 ^ 64

/-- A value reduced to a 32 bit word. -/
def u32 (n : Nat) : Nat := n % 2 ^ 32

/-- A value converted to an `int8_t`. -/
def int8 (k : Nat) : Int :=
  if k % 256 < 128 then (k % 256 : Nat) else (k % 256 : Nat) - 256

/-- Subtraction of 64 bit words, which wraps below zero. -/
def sub64 (a b : Nat) : Nat := (a + 2 ^ 64 - b) % 2 ^ 64

/-- The base 2 logarithm of a positive word. Source: `log2` (`arithmetic.hpp:59`). -/
def log2 (n : Nat) : Nat := Nat.log2 n

/-- Source: `is_aligned` (`arithmetic.hpp:74`). The mask `(1u << log2(block_size)) - 1` is a
32 bit word. -/
def isAligned (n blockSize : Nat) : Bool :=
  n &&& (u32 (1 <<< log2 blockSize) + 2 ^ 32 - 1) % 2 ^ 32 == 0

/-- Source: `align_left` (`arithmetic.hpp:91`). The mask is the complement of `block_size - 1`. -/
def alignLeft (offset blockSize : Nat) : Nat :=
  offset &&& (2 ^ 64 - 1 - sub64 blockSize 1)

/-- Source: `align_right` (`arithmetic.hpp:109`). -/
def alignRight (offset blockSize : Nat) : Nat :=
  u64 (alignLeft offset blockSize + blockSize)

/-- Source: `block_overrun` (`arithmetic.hpp:128`). -/
def blockOverrun (offset blockSize : Nat) : Nat :=
  offset &&& sub64 blockSize 1

/-- Source: `block_underrun` (`arithmetic.hpp:147`). -/
def blockUnderrun (offset blockSize : Nat) : Nat :=
  sub64 (alignRight offset blockSize) offset

/-- Source: `block_index` (`arithmetic.hpp:172`). -/
def blockIndex (offset blockSize : Nat) : Nat :=
  alignLeft offset blockSize >>> log2 blockSize

/-! ## Words -/

/-- A word is its own reduction. -/
theorem u64_of_lt {n : Nat} (h : n < 2 ^ 64) : u64 n = n := Nat.mod_eq_of_lt h

/-- Word subtraction that does not wrap is subtraction. -/
theorem sub64_of_le {a b : Nat} (h : b ≤ a) (ha : a < 2 ^ 64) : sub64 a b = a - b := by
  rw [sub64]; omega

/-- An `int8_t` holds the numbers below 128. -/
theorem int8_of_lt {k : Nat} (h : k < 128) : int8 k = k := by
  rw [int8, Nat.mod_eq_of_lt (by omega), if_pos h]

theorem int8_zero : int8 0 = 0 := rfl

/-- An `int8_t` is below 128. -/
theorem int8_lt (k : Nat) : int8 k < 128 := by
  rw [int8]
  split <;> omega

/-! ## At a power of two -/

section
variable {k n : Nat}

/-- Rounding down to a block boundary. -/
theorem alignLeft_two_pow (hk : k < 64) (hn : n < 2 ^ 64) :
    alignLeft n (2 ^ k) = n / 2 ^ k * 2 ^ k := by
  have hpos := Nat.two_pow_pos k
  have hlt : 2 ^ k < 2 ^ 64 := Nat.pow_lt_pow_right (by decide) hk
  rw [alignLeft, sub64_of_le hpos hlt, show 2 ^ 64 - 1 - (2 ^ k - 1) = 2 ^ 64 - (2 ^ k - 1 + 1) by
    omega]
  apply Nat.eq_of_testBit_eq
  intro i
  rw [Nat.testBit_and, Nat.testBit_two_pow_sub_succ (by omega), Nat.testBit_mul_two_pow,
    Nat.testBit_div_two_pow, Nat.testBit_two_pow_sub_one]
  by_cases hi : i < k
  · simp [hi, show ¬ k ≤ i by omega]
  · rw [show i - k + k = i by omega]
    by_cases h64 : i < 64
    · simp [hi, h64, show k ≤ i by omega]
    · have : n.testBit i = false :=
        Nat.testBit_lt_two_pow (hn.trans_le (Nat.pow_le_pow_right (by decide) (by omega)))
      simp [this]

/-- The block that an offset falls into. -/
theorem blockIndex_two_pow (hk : k < 64) (hn : n < 2 ^ 64) :
    blockIndex n (2 ^ k) = n / 2 ^ k := by
  rw [blockIndex, alignLeft_two_pow hk hn, log2, Nat.log2_two_pow, Nat.shiftRight_eq_div_pow,
    Nat.mul_div_cancel _ (Nat.two_pow_pos k)]

/-- The position of an offset in its block. -/
theorem blockOverrun_two_pow (hk : k < 64) : blockOverrun n (2 ^ k) = n % 2 ^ k := by
  rw [blockOverrun, sub64_of_le (Nat.two_pow_pos k) (Nat.pow_lt_pow_right (by decide) hk),
    Nat.and_two_pow_sub_one_eq_mod]

/-- The distance of an offset to the end of its block, when that end is a word. -/
theorem blockUnderrun_two_pow (hk : k < 64) (hn : n + 2 ^ k < 2 ^ 64) :
    blockUnderrun n (2 ^ k) = 2 ^ k - n % 2 ^ k := by
  have hd := Nat.div_add_mod' n (2 ^ k)
  have hm := Nat.mod_lt n (Nat.two_pow_pos k)
  rw [blockUnderrun, alignRight, alignLeft_two_pow hk (by omega), u64_of_lt (by omega),
    sub64_of_le (by omega) (by omega)]
  omega

/-- Alignment is divisibility, for the block sizes that fit the 32 bit mask. -/
theorem isAligned_two_pow (hk : k < 32) : isAligned n (2 ^ k) = decide (n % 2 ^ k = 0) := by
  have hpos := Nat.two_pow_pos k
  have hlt : 2 ^ k < 2 ^ 32 := Nat.pow_lt_pow_right (by decide) hk
  rw [isAligned, log2, Nat.log2_two_pow, Nat.one_shiftLeft, u32, Nat.mod_eq_of_lt hlt,
    show (2 ^ k + 2 ^ 32 - 1) % 2 ^ 32 = 2 ^ k - 1 by omega, Nat.and_two_pow_sub_one_eq_mod]
  rfl

end

/-! ## At the chunk size -/

/-- The chunk size is positive. -/
theorem chunksize_pos : 0 < chunksize := by decide

/-- `blockIndex` at the chunk size. -/
theorem blockIndex_chunksize {n : Nat} (hn : n < 2 ^ 64) :
    blockIndex n chunksize = n / chunksize := blockIndex_two_pow (k := 19) (by decide) hn

/-- `blockOverrun` at the chunk size. -/
theorem blockOverrun_chunksize (n : Nat) : blockOverrun n chunksize = n % chunksize :=
  blockOverrun_two_pow (k := 19) (by decide)

/-- `blockUnderrun` at the chunk size. -/
theorem blockUnderrun_chunksize {n : Nat} (hn : n + chunksize < 2 ^ 64) :
    blockUnderrun n chunksize = chunksize - n % chunksize :=
  blockUnderrun_two_pow (k := 19) (by decide) hn

/-- `isAligned` at the chunk size. -/
theorem isAligned_chunksize (n : Nat) : isAligned n chunksize = decide (n % chunksize = 0) :=
  isAligned_two_pow (k := 19) (by decide)

/-! ## Signed words -/

/-- A signed word as an unsigned one. -/
theorem toNat_toUInt64 (x : Int64) : (x.toUInt64.toNat : Int) = x.toInt % 2 ^ 64 := by
  have hint : x.toInt = x.toBitVec.toInt := rfl
  have hword : x.toUInt64.toNat = x.toBitVec.toNat := rfl
  rw [hint, hword, BitVec.toInt_eq_toNat_cond]
  split <;> omega

/-- An offset that is not negative, as a word. -/
theorem toNat_toUInt64_of_nonneg {offset : Int64} (h : 0 ≤ offset.toInt) :
    offset.toUInt64.toNat = offset.toInt.toNat := by
  have hword := toNat_toUInt64 offset
  have hlt := offset.toInt_lt
  omega

/-- An unsigned word as a signed one. -/
theorem toInt_toInt64 (x : UInt64) :
    x.toInt64.toInt = if x.toNat < 2 ^ 63 then (x.toNat : Int) else x.toNat - 2 ^ 64 := by
  have hint : x.toInt64.toInt = x.toBitVec.toInt := rfl
  have hword : x.toNat = x.toBitVec.toNat := rfl
  rw [hint, hword, BitVec.toInt_eq_toNat_cond]
  split <;> split <;> omega

end GekkoFS
