import GekkoFS.Common.Arithmetic
import Mathlib.Order.Interval.Finset.Nat

/-!
# Block arithmetic by division

`block_count` and what all functions of `include/common/arithmetic/arithmetic.hpp` are for: at a
block size that is a power of two they are quotients, remainders and multiples of the block size
(`BlockArithmeticOk`), and `block_count` is the number of blocks that a range meets
(`card_blocksMeeting`).

All but two of them work on 64 bit words. `is_aligned`, and with it `block_count`, makes its mask by
shifting the 32 bit word `1u`, which has no value for a distance of 32 and more; these two functions
are the ones for which the block size has to be below `2 ^ 32` (`blockArithmeticOk_iff`).
-/

namespace GekkoFS

/-- `is_aligned` with the shift it makes: `1u << log2(block_size)` is undefined if the distance is
not below the width of the word. Where it is defined it is `isAligned`. Source: `is_aligned`
(`arithmetic.hpp:74`). -/
def isAligned? (n blockSize : Nat) : Option Bool :=
  if log2 blockSize < 32 then some (isAligned n blockSize) else none

/-- The blocks up to the one that the end of the range falls into, which is counted if the end is
not aligned; `-!!size` masks the count for an empty range. Source: `block_count`
(`arithmetic.hpp:193`). -/
def blockCount? (offset size blockSize : Nat) : Option Nat :=
  let firstBlock := alignLeft offset blockSize
  let finalBlock := alignLeft (u64 (offset + size)) blockSize
  let mask := if size = 0 then 0 else 2 ^ 64 - 1
  (isAligned? (u64 (offset + size)) blockSize).map fun aligned =>
    u64 (sub64 (finalBlock >>> log2 blockSize) (firstBlock >>> log2 blockSize) +
      (!aligned).toNat) &&& mask

/-- The blocks that a range of bytes meets. -/
def blocksMeeting (offset size blockSize : Nat) : Finset Nat :=
  (Finset.Ico offset (offset + size)).image (· / blockSize)

/-- The block arithmetic at one offset, size and block size: each function is its definition by
division and remainder, the last three of them where no word overflows. -/
structure BlockArithmeticOk (offset size blockSize : Nat) : Prop where
  isAligned : isAligned? offset blockSize = some (decide (offset % blockSize = 0))
  blockIndex : blockIndex offset blockSize = offset / blockSize
  blockOverrun : blockOverrun offset blockSize = offset % blockSize
  alignLeft : alignLeft offset blockSize = offset / blockSize * blockSize
  alignRight : (offset / blockSize + 1) * blockSize < 2 ^ 64 →
    alignRight offset blockSize = (offset / blockSize + 1) * blockSize
  blockUnderrun : (offset / blockSize + 1) * blockSize < 2 ^ 64 →
    blockUnderrun offset blockSize = blockSize - offset % blockSize
  blockCount : offset + size < 2 ^ 64 →
    blockCount? offset size blockSize = some (blocksMeeting offset size blockSize).card

/-! ## The blocks of a range -/

section
variable {offset size blockSize : Nat}

/-- A range that is not empty meets the blocks from that of its first byte to that of its last. -/
theorem blocksMeeting_eq_Icc (hblock : 0 < blockSize) (hsize : 0 < size) :
    blocksMeeting offset size blockSize =
      Finset.Icc (offset / blockSize) ((offset + size - 1) / blockSize) := by
  ext i
  rw [blocksMeeting, Finset.mem_image, Finset.mem_Icc]
  constructor
  · rintro ⟨x, hx, rfl⟩
    rw [Finset.mem_Ico] at hx
    exact ⟨Nat.div_le_div_right hx.1, Nat.div_le_div_right (by omega)⟩
  · rintro ⟨hfirst, hlast⟩
    -- the first byte of the block, or of the range if that starts later
    refine ⟨max offset (i * blockSize), ?_, ?_⟩
    · have hstart : i * blockSize ≤ offset + size - 1 := (Nat.le_div_iff_mul_le hblock).1 hlast
      rw [Finset.mem_Ico]
      omega
    · rcases Nat.le_total offset (i * blockSize) with h | h
      · rw [Nat.max_eq_right h, Nat.mul_div_cancel i hblock]
      · rw [Nat.max_eq_left h]
        exact Nat.le_antisymm hfirst ((Nat.le_div_iff_mul_le hblock).2 h)

/-- How many blocks a range meets: those before its end, and the one the end falls into if the end
is not aligned. -/
theorem card_blocksMeeting (hblock : 0 < blockSize) (hsize : 0 < size) :
    (blocksMeeting offset size blockSize).card =
      (offset + size) / blockSize - offset / blockSize +
        (if (offset + size) % blockSize = 0 then 0 else 1) := by
  rw [blocksMeeting_eq_Icc hblock hsize, Nat.card_Icc]
  have hle : offset / blockSize ≤ (offset + size - 1) / blockSize :=
    Nat.div_le_div_right (by omega)
  have hsucc : (offset + size - 1 + 1) / blockSize = (offset + size - 1) / blockSize +
      if blockSize ∣ offset + size - 1 + 1 then 1 else 0 := Nat.succ_div
  rw [show offset + size - 1 + 1 = offset + size by omega] at hsucc
  by_cases hmod : (offset + size) % blockSize = 0
  · rw [if_pos (Nat.dvd_of_mod_eq_zero hmod)] at hsucc
    rw [if_pos hmod]
    omega
  · rw [if_neg fun hdvd => hmod (Nat.mod_eq_zero_of_dvd hdvd)] at hsucc
    rw [if_neg hmod]
    omega

/-! ## At a power of two -/

variable {k : Nat} (hk : k < 64)

include hk

/-- Rounding up to a block boundary, when that boundary is a word. -/
theorem alignRight_two_pow (hoffset : offset < 2 ^ 64)
    (h : (offset / 2 ^ k + 1) * 2 ^ k < 2 ^ 64) :
    alignRight offset (2 ^ k) = (offset / 2 ^ k + 1) * 2 ^ k := by
  rw [alignRight, alignLeft_two_pow hk hoffset, ← Nat.succ_mul, u64_of_lt h]

/-- The distance to the block boundary on the right, when that boundary is a word. -/
theorem blockUnderrun_eq (hoffset : offset < 2 ^ 64)
    (h : (offset / 2 ^ k + 1) * 2 ^ k < 2 ^ 64) :
    blockUnderrun offset (2 ^ k) = 2 ^ k - offset % 2 ^ k := by
  have hdiv := Nat.div_add_mod' offset (2 ^ k)
  have hmod := Nat.mod_lt offset (Nat.two_pow_pos k)
  have hmul : (offset / 2 ^ k + 1) * 2 ^ k = offset / 2 ^ k * 2 ^ k + 2 ^ k := Nat.succ_mul _ _
  rw [blockUnderrun, alignRight_two_pow hk hoffset h, sub64_of_le (by omega) h]
  omega

omit hk in
/-- Where the mask of `is_aligned` is defined. -/
theorem isAligned?_two_pow (n : Nat) :
    isAligned? n (2 ^ k) = if k < 32 then some (decide (n % 2 ^ k = 0)) else none := by
  rw [isAligned?, log2, Nat.log2_two_pow]
  split
  · next h => rw [isAligned_two_pow h]
  · rfl

/-- The block count is the number of blocks that the range meets. -/
theorem blockCount?_two_pow (h32 : k < 32) (h : offset + size < 2 ^ 64) :
    blockCount? offset size (2 ^ k) = some (blocksMeeting offset size (2 ^ k)).card := by
  have hshift : ∀ n, n < 2 ^ 64 → alignLeft n (2 ^ k) >>> log2 (2 ^ k) = n / 2 ^ k := fun n hn =>
    blockIndex_two_pow hk hn
  have hle : offset / 2 ^ k ≤ (offset + size) / 2 ^ k := Nat.div_le_div_right (by omega)
  have hword : (offset + size) / 2 ^ k < 2 ^ 64 := (Nat.div_le_self _ _).trans_lt h
  rw [blockCount?, isAligned?_two_pow, if_pos h32, Option.map_some]
  simp only [u64_of_lt h, hshift _ h, hshift offset (by omega), sub64_of_le hle hword]
  rcases Nat.eq_zero_or_pos size with rfl | hsize
  · simp [blocksMeeting]
  · have hcard := @card_blocksMeeting offset size (2 ^ k) (Nat.two_pow_pos k) hsize
    have hcount : (blocksMeeting offset size (2 ^ k)).card ≤ size :=
      Finset.card_image_le.trans (by rw [Nat.card_Ico]; omega)
    have hbit : (!decide ((offset + size) % 2 ^ k = 0)).toNat =
        if (offset + size) % 2 ^ k = 0 then 0 else 1 := by
      by_cases hmod : (offset + size) % 2 ^ k = 0
      · rw [if_pos hmod, decide_eq_true hmod]
        rfl
      · rw [if_neg hmod, decide_eq_false hmod]
        rfl
    rw [if_neg (by omega), Nat.and_two_pow_sub_one_eq_mod, hbit, ← hcard, u64_of_lt (by omega),
      Nat.mod_eq_of_lt (by omega)]

end

/-- When the block arithmetic is division, for every offset, size and power of two: when the shift
of `is_aligned` stays inside its 32 bit word. -/
theorem blockArithmeticOk_iff (offset size : UInt64) (k : Fin 64) :
    BlockArithmeticOk offset.toNat size.toNat (2 ^ k.val) ↔ k.val < 32 := by
  have hoffset : offset.toNat < 2 ^ 64 := offset.toNat_lt
  constructor
  · intro h
    by_contra h32
    have haligned := h.isAligned
    rw [isAligned?_two_pow, if_neg h32] at haligned
    exact nomatch haligned
  · intro h32
    exact {
      isAligned := by rw [isAligned?_two_pow, if_pos h32]
      blockIndex := blockIndex_two_pow k.isLt hoffset
      blockOverrun := blockOverrun_two_pow k.isLt
      alignLeft := alignLeft_two_pow k.isLt hoffset
      alignRight := alignRight_two_pow k.isLt hoffset
      blockUnderrun := blockUnderrun_eq k.isLt hoffset
      blockCount := blockCount?_two_pow k.isLt h32 }

/-- A block size of `2 ^ 40`: the shift is undefined, and the mask that a 32 bit shift leaves takes
`2 ^ 32` for a multiple of the block size. -/
theorem isAligned_wide_block :
    ¬ BlockArithmeticOk (2 ^ 32) 1 (2 ^ 40) ∧ isAligned (2 ^ 32) (2 ^ 40) = true ∧
      ¬ 2 ^ 40 ∣ 2 ^ 32 := by
  refine ⟨fun h => ?_, by decide, by decide⟩
  have haligned := h.isAligned
  rw [isAligned?_two_pow, if_neg (by decide)] at haligned
  exact nomatch haligned

end GekkoFS
