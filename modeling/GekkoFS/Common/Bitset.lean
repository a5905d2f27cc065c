import Mathlib.Data.List.Basic
import Mathlib.Tactic.IntervalCases
import GekkoFS.Common.Arithmetic

/-!
# Chunk bitmaps and their text form

A client tells a daemon which chunks of an I/O range are its own by a bitmap, one bit a chunk, that
travels as base64 text (`src/common/rpc/rpc_util.cpp`). `orBit` sets a bit of a byte vector and
`hasBit` reads one; the functions of the source reduce the position to 16 bits first
(`setBitset`, `getBitset`). The decoder is not an inverse of the encoder: when the last group of
three bytes is not full it appends a byte (`losslessText_iff`). What both sides need still holds,
the decoded vector begins with the encoded one (`base64Decode_base64Encode`), so the bits of the
range survive (`getBitset_decompressBitset_mod`).
-/

namespace GekkoFS

open List

/-! ## Bits of a byte vector -/

/-- Bit `i` of a byte vector. -/
def hasBit (data : List UInt8) (i : Nat) : Bool :=
  (data.getD (i / 8) 0).toNat &&& 1 <<< (i % 8) != 0

/-- Set bit `i` of a byte vector. Source: `read_bitset_vect[target][i / 8] |= 1 << (i % 8)`
(`src/client/rpc/forward_data.cpp:345`). -/
def orBit (data : List UInt8) (i : Nat) : List UInt8 :=
  data.modify (i / 8) fun b => UInt8.ofNat (b.toNat ||| 1 <<< (i % 8))

/-- Source: `get_bitset` (`rpc_util.cpp:116`), whose position is a 16 bit word. -/
def getBitset (data : List UInt8) (position : Nat) : Bool :=
  hasBit data (position % 2 ^ 16)

/-- Source: `set_bitset` (`rpc_util.cpp:127`), whose position is a 16 bit word. -/
def setBitset (data : List UInt8) (position : Nat) : List UInt8 :=
  orBit data (position % 2 ^ 16)

/-- A bit of a vector is a bit of its byte. -/
theorem hasBit_eq_testBit (data : List UInt8) (i : Nat) :
    hasBit data i = (data.getD (i / 8) 0).toNat.testBit (i % 8) := by
  rw [hasBit, Nat.one_shiftLeft, Nat.and_two_pow]
  cases (data.getD (i / 8) 0).toNat.testBit (i % 8) <;> simp

/-- Setting a bit of a byte leaves a byte. -/
theorem toNat_or_bit (b : UInt8) (k : Nat) (hk : k < 8) :
    (UInt8.ofNat (b.toNat ||| 1 <<< k)).toNat = b.toNat ||| 1 <<< k := by
  rw [UInt8.toNat_ofNat']
  refine Nat.mod_eq_of_lt (Nat.or_lt_two_pow (n := 8) b.toNat_lt ?_)
  rw [Nat.one_shiftLeft]
  exact Nat.pow_lt_pow_right (by decide) hk

@[simp] theorem orBit_length (data : List UInt8) (i : Nat) :
    (orBit data i).length = data.length := by
  simp [orBit]

variable {data : List UInt8} {i : Nat}

/-- After a bit of the vector has been set, that bit and the old ones are set. -/
theorem hasBit_orBit (hi : i / 8 < data.length) (j : Nat) :
    hasBit (orBit data i) j = (decide (i = j) || hasBit data j) := by
  rw [hasBit_eq_testBit, hasBit_eq_testBit, orBit, getD_eq_getElem?_getD,
    getD_eq_getElem?_getD, getElem?_modify]
  by_cases hb : i / 8 = j / 8
  · obtain ⟨b, hbj⟩ : ∃ b, data[j / 8]? = some b := ⟨_, getElem?_eq_getElem (hb ▸ hi)⟩
    have hij : (i = j) = (i % 8 = j % 8) := propext ⟨fun h => by rw [h], fun h => by omega⟩
    rw [hbj]
    simp only [Option.map_eq_map, Option.map_some, hb, if_true, Option.getD_some]
    rw [toNat_or_bit b _ (Nat.mod_lt _ (by decide)), Nat.testBit_or, Nat.one_shiftLeft,
      Nat.testBit_two_pow, Bool.or_comm]
    simp only [hij]
  · have hij : ¬ i = j := fun h => hb (by rw [h])
    simp [hb, hij]

/-- No bit of a zero vector is set. -/
theorem hasBit_replicate_zero (n i : Nat) : hasBit (List.replicate n 0) i = false := by
  rw [hasBit_eq_testBit, getD_eq_getElem?_getD, getElem?_replicate]
  split <;> simp

/-! ## The text form -/

/-- The alphabet of `base64_encode` and `base64_decode`. -/
def base64Chars : List Char :=
  "ABCDEFGHIJKLMNOPQRSTUVWXYZabcdefghijklmnopqrstuvwxyz0123456789+/".toList

/-- The character of the low six bits of a word. -/
def base64Char (n : Nat) : Char := base64Chars.getD (n &&& 63) 'A'

/-- The inner loop of `base64_encode`: emit a character while six bits are pending. -/
def base64Drain (buffer : Nat) : Nat → List Char × Nat
  | padding + 6 =>
    let r := base64Drain buffer padding
    (base64Char (buffer >>> padding) :: r.1, r.2)
  | padding => ([], padding)

/-- The byte loop of `base64_encode`: the characters it emits, and `buffer` and `padding` after
it. -/
def base64EncodeLoop : List UInt8 → Nat → Nat → List Char × Nat × Nat
  | [], buffer, padding => ([], buffer, padding)
  | byte :: data, buffer, padding =>
    let buffer := u32 (buffer <<< 8) ||| byte.toNat
    let d := base64Drain buffer (padding + 8)
    let r := base64EncodeLoop data buffer d.2
    (d.1 ++ r.1, r.2)

/-- The characters of `base64_encode` before the `=` padding. -/
def base64Body (data : List UInt8) (buffer padding : Nat) : List Char :=
  let r := base64EncodeLoop data buffer padding
  if 0 < r.2.2 then r.1 ++ [base64Char (u32 (r.2.1 <<< (6 - r.2.2)))] else r.1

/-- Source: `base64_encode` (`rpc_util.cpp:132`). -/
def base64Encode (data : List UInt8) : List Char :=
  let body := base64Body data 0 0
  body ++ List.replicate ((4 - body.length % 4) % 4) '='

/-- The character loop of `base64_decode`: the bytes it pushes, and `buffer` and `padding` after
it. -/
def base64DecodeLoop : List Char → Nat → Nat → List UInt8 × Nat × Nat
  | [], buffer, padding => ([], buffer, padding)
  | c :: encoded, buffer, padding =>
    if c = '=' then ([], buffer, padding)
    else
      match base64Chars.idxOf? c with
      | none => base64DecodeLoop encoded buffer padding
      | some value =>
        let buffer := u32 (buffer <<< 6) ||| value
        if 8 ≤ padding + 6 then
          let r := base64DecodeLoop encoded buffer (padding + 6 - 8)
          (UInt8.ofNat (buffer >>> (padding + 6 - 8) &&& 255) :: r.1, r.2)
        else base64DecodeLoop encoded buffer (padding + 6)

/-- Source: `base64_decode` (`rpc_util.cpp:163`). `count` is the number of bytes pushed. -/
def base64Decode (encoded : List Char) : List UInt8 :=
  let (data, buffer, padding) := base64DecodeLoop encoded 0 0
  let (data, padding) :=
    if 0 < padding ∧ padding < 6 ∧ buffer &&& ((1 <<< padding) - 1) = 0 then
      (data ++ [UInt8.ofNat ((buffer >>> padding) >>> 8 &&& 255)], 0)
    else (data, padding)
  if data.length = 0 ∨ padding % 8 ≠ 0 then [] else data

/-- Source: `compress_bitset` (`rpc_util.cpp:205`). -/
def compressBitset (bytes : List UInt8) : List Char := base64Encode bytes

/-- Source: `decompress_bitset` (`rpc_util.cpp:210`). -/
def decompressBitset (compressedString : List Char) : List UInt8 := base64Decode compressedString

/-! ## Reading the text back -/

/-- Appending a byte to a buffer of 32 bits. -/
theorem buffer_push_byte (x : Nat) (b : UInt8) :
    u32 (x <<< 8) ||| b.toNat = x % 2 ^ 24 * 2 ^ 8 + b.toNat := by
  have h : u32 (x <<< 8) = (x % 2 ^ 24) <<< 8 := by
    rw [u32, Nat.shiftLeft_eq, Nat.shiftLeft_eq]; omega
  rw [h, ← Nat.shiftLeft_add_eq_or_of_lt (by exact b.toNat_lt), Nat.shiftLeft_eq]

/-- Appending a character's value to a buffer of 32 bits. -/
theorem buffer_push_value (x : Nat) {v : Nat} (hv : v < 64) :
    u32 (x <<< 6) ||| v = x % 2 ^ 26 * 2 ^ 6 + v := by
  have h : u32 (x <<< 6) = (x % 2 ^ 26) <<< 6 := by
    rw [u32, Nat.shiftLeft_eq, Nat.shiftLeft_eq]; omega
  rw [h, ← Nat.shiftLeft_add_eq_or_of_lt (by simpa using hv), Nat.shiftLeft_eq]

/-- The low six bits of a word. -/
theorem and_63 (n : Nat) : n &&& 63 = n % 64 := Nat.and_two_pow_sub_one_eq_mod n 6

/-- The low eight bits of a word. -/
theorem and_255 (n : Nat) : n &&& 255 = n % 256 := Nat.and_two_pow_sub_one_eq_mod n 8

/-- The decoder finds the value of a character of the alphabet, which is not the padding
character. -/
theorem base64Char_spec (n : Nat) :
    base64Char n ≠ '=' ∧ base64Chars.idxOf? (base64Char n) = some (n % 64) := by
  have h : ∀ i < 64, base64Chars.getD i 'A' ≠ '=' ∧
      base64Chars.idxOf? (base64Chars.getD i 'A') = some i := by decide +kernel
  rw [base64Char, and_63]
  exact h _ (Nat.mod_lt _ (by decide))

variable {n : Nat}

/-- A character of the alphabet depends on the low six bits only. -/
theorem base64Char_congr {m : Nat} (h : m % 64 = n % 64) : base64Char m = base64Char n := by
  rw [base64Char, base64Char, and_63, and_63, h]

/-- The decoder reads a character that does not complete a byte. -/
theorem base64DecodeLoop_value (n x p : Nat) (cs : List Char) (hp : p < 2) :
    base64DecodeLoop (base64Char n :: cs) x p =
      base64DecodeLoop cs (x % 2 ^ 26 * 2 ^ 6 + n % 64) (p + 6) := by
  obtain ⟨h₁, h₂⟩ := base64Char_spec n
  rw [base64DecodeLoop, if_neg h₁, h₂]
  simp only [buffer_push_value x (Nat.mod_lt n (by decide : 0 < 64))]
  rw [if_neg (by omega)]

variable {x p : Nat} {b : UInt8} {cs : List Char}

/-- The decoder reads a character that completes the byte `b`. -/
theorem base64DecodeLoop_byte
    {r : List UInt8 × Nat × Nat}
    (hp : 2 ≤ p) (hb : (x % 2 ^ 26 * 2 ^ 6 + n % 64) / 2 ^ (p - 2) % 256 = b.toNat)
    (hr : base64DecodeLoop cs (x % 2 ^ 26 * 2 ^ 6 + n % 64) (p - 2) = r) :
    base64DecodeLoop (base64Char n :: cs) x p = (b :: r.1, r.2) := by
  obtain ⟨h₁, h₂⟩ := base64Char_spec n
  rw [base64DecodeLoop, if_neg h₁, h₂]
  simp only [buffer_push_value x (Nat.mod_lt n (by decide : 0 < 64))]
  rw [if_pos (by omega), show p + 6 - 8 = p - 2 by omega, and_255, Nat.shiftRight_eq_div_pow, hb,
    UInt8.ofNat_toNat, hr]

/-- The decoder stops at the padding. -/
theorem base64DecodeLoop_padding (k : Nat) : ∀ (cs : List Char) (x p : Nat),
    base64DecodeLoop (cs ++ List.replicate k '=') x p = base64DecodeLoop cs x p
  | [], x, p => by cases k <;> simp [base64DecodeLoop, replicate_succ]
  | c :: cs, x, p => by
    have ih := base64DecodeLoop_padding k cs
    simp only [cons_append, base64DecodeLoop, ih]

/-- A byte is encoded as the characters it completes, followed by the rest. -/
theorem base64Body_cons {q : Nat}
    (h : base64Drain (x % 2 ^ 24 * 2 ^ 8 + b.toNat) (p + 8) = (cs, q)) :
    base64Body (b :: data) x p = cs ++ base64Body data (x % 2 ^ 24 * 2 ^ 8 + b.toNat) q := by
  simp only [base64Body, base64EncodeLoop, buffer_push_byte, h]
  split <;> simp

theorem base64Drain_eight (n : Nat) :
    base64Drain n 8 = ([base64Char (n / 4)], 2) := by
  simp [base64Drain, Nat.shiftRight_eq_div_pow]

theorem base64Drain_ten (n : Nat) :
    base64Drain n 10 = ([base64Char (n / 16)], 4) := by
  simp [base64Drain, Nat.shiftRight_eq_div_pow]

theorem base64Drain_twelve (n : Nat) :
    base64Drain n 12 = ([base64Char (n / 64), base64Char n], 0) := by
  simp [base64Drain, Nat.shiftRight_eq_div_pow]

/-- The first byte of a group of three. -/
theorem base64Body_first (a : UInt8) (data : List UInt8) (x : Nat) :
    base64Body (a :: data) x 0 =
      base64Char (a.toNat / 4) :: base64Body data (x % 2 ^ 24 * 2 ^ 8 + a.toNat) 2 := by
  rw [base64Body_cons (base64Drain_eight _), singleton_append,
    base64Char_congr (n := a.toNat / 4) (by omega)]

/-- The second byte, with two bits of the first one pending. -/
theorem base64Body_second (b : UInt8) (data : List UInt8) (x : Nat) :
    base64Body (b :: data) x 2 =
      base64Char (x % 4 * 16 + b.toNat / 16) ::
        base64Body data (x % 2 ^ 24 * 2 ^ 8 + b.toNat) 4 := by
  rw [base64Body_cons (base64Drain_ten _), singleton_append,
    base64Char_congr (n := x % 4 * 16 + b.toNat / 16) (by omega)]

/-- The third byte, with four bits of the second one pending. -/
theorem base64Body_third (c : UInt8) (data : List UInt8) (x : Nat) :
    base64Body (c :: data) x 4 =
      base64Char (x % 16 * 4 + c.toNat / 64) :: base64Char c.toNat ::
        base64Body data (x % 2 ^ 24 * 2 ^ 8 + c.toNat) 0 := by
  have hc := c.toNat_lt
  rw [base64Body_cons (base64Drain_twelve _), cons_append, singleton_append,
    base64Char_congr (n := x % 16 * 4 + c.toNat / 64) (by omega),
    base64Char_congr (m := x % 2 ^ 24 * 2 ^ 8 + c.toNat) (n := c.toNat) (by omega)]

/-- The bits pending after a byte are those of the byte. -/
theorem push_mod_four (x : Nat) (b : UInt8) :
    (x % 2 ^ 24 * 2 ^ 8 + b.toNat) % 4 = b.toNat % 4 := by omega

theorem push_mod_sixteen (x : Nat) (b : UInt8) :
    (x % 2 ^ 24 * 2 ^ 8 + b.toNat) % 16 = b.toNat % 16 := by omega

/-- Three bytes are encoded as four characters, and leave nothing pending. -/
theorem base64Body_three (a b c : UInt8) (data : List UInt8) (x : Nat) :
    ∃ y, base64Body (a :: b :: c :: data) x 0 =
      base64Char (a.toNat / 4) :: base64Char (a.toNat % 4 * 16 + b.toNat / 16) ::
        base64Char (b.toNat % 16 * 4 + c.toNat / 64) :: base64Char c.toNat ::
          base64Body data y 0 := by
  rw [base64Body_first, base64Body_second, base64Body_third, push_mod_four, push_mod_sixteen]
  exact ⟨_, rfl⟩

/-- The characters of what is pending at the end of a text. -/
theorem base64Body_nil (x : Nat) (hp : 0 < p) :
    base64Body [] x p = [base64Char (u32 (x <<< (6 - p)))] := by
  rw [base64Body, base64EncodeLoop, if_pos hp, nil_append]

/-- The last byte of a text, alone in its group of three. -/
theorem base64Body_one (a : UInt8) (x : Nat) :
    base64Body [a] x 0 = [base64Char (a.toNat / 4), base64Char (a.toNat % 4 * 16)] := by
  have hpending : u32 ((x % 2 ^ 24 * 2 ^ 8 + a.toNat) <<< 4) % 64 = a.toNat % 4 * 16 % 64 := by
    rw [u32, Nat.shiftLeft_eq]
    omega
  rw [base64Body_first, base64Body_nil _ (by decide), base64Char_congr hpending]

/-- The last two bytes of a text, alone in their group of three. -/
theorem base64Body_two (a b : UInt8) (x : Nat) :
    base64Body [a, b] x 0 = [base64Char (a.toNat / 4),
      base64Char (a.toNat % 4 * 16 + b.toNat / 16), base64Char (b.toNat % 16 * 4)] := by
  have hpending : ∀ y, u32 ((y % 2 ^ 24 * 2 ^ 8 + b.toNat) <<< 2) % 64 =
      b.toNat % 16 * 4 % 64 := by
    intro y
    rw [u32, Nat.shiftLeft_eq]
    omega
  rw [base64Body_first, base64Body_second, push_mod_four, base64Body_nil _ (by decide),
    base64Char_congr (hpending _)]

/-- The byte loop of the decoder, run on the characters of `data`, pushes `data`. What is left
pending are zero bits: none after full groups of three bytes, four after one byte more, two after
two bytes more. -/
theorem base64DecodeLoop_body : ∀ (data : List UInt8) (x y : Nat),
    ∃ buffer padding, base64DecodeLoop (base64Body data x 0) y 0 = (data, buffer, padding) ∧
      (data.length % 3 = 0 ∧ padding = 0 ∨
        data.length % 3 = 1 ∧ padding = 4 ∧ buffer &&& ((1 <<< 4) - 1) = 0 ∨
        data.length % 3 = 2 ∧ padding = 2 ∧ buffer &&& ((1 <<< 2) - 1) = 0)
  | [], x, y => ⟨y, 0, by simp [base64Body, base64EncodeLoop, base64DecodeLoop], .inl ⟨rfl, rfl⟩⟩
  | [a], x, y => by
    have ha := a.toNat_lt
    refine ⟨(y % 2 ^ 26 * 2 ^ 6 + a.toNat / 4 % 64) % 2 ^ 26 * 2 ^ 6 + a.toNat % 4 * 16 % 64, 4, ?_,
      .inr (.inl ⟨rfl, rfl, (Nat.and_two_pow_sub_one_eq_mod _ 4).trans ?_⟩)⟩
    · rw [base64Body_one, base64DecodeLoop_value _ _ _ _ (by decide)]
      exact base64DecodeLoop_byte (by decide) (by omega) rfl
    · omega
  | [a, b], x, y => by
    have ha := a.toNat_lt
    have hb := b.toNat_lt
    refine ⟨((y % 2 ^ 26 * 2 ^ 6 + a.toNat / 4 % 64) % 2 ^ 26 * 2 ^ 6 +
      (a.toNat % 4 * 16 + b.toNat / 16) % 64) % 2 ^ 26 * 2 ^ 6 + b.toNat % 16 * 4 % 64, 2, ?_,
      .inr (.inr ⟨rfl, rfl, (Nat.and_two_pow_sub_one_eq_mod _ 2).trans ?_⟩)⟩
    · rw [base64Body_two, base64DecodeLoop_value _ _ _ _ (by decide)]
      exact base64DecodeLoop_byte (by decide) (by omega)
        (base64DecodeLoop_byte (by decide) (by omega) rfl)
    · omega
  | a :: b :: c :: data, x, y => by
    have ha := a.toNat_lt
    have hb := b.toNat_lt
    have hc := c.toNat_lt
    obtain ⟨z, hz⟩ := base64Body_three a b c data x
    obtain ⟨buffer, padding, h, hp⟩ := base64DecodeLoop_body data z
      ((((y % 2 ^ 26 * 2 ^ 6 + a.toNat / 4 % 64) % 2 ^ 26 * 2 ^ 6 +
        (a.toNat % 4 * 16 + b.toNat / 16) % 64) % 2 ^ 26 * 2 ^ 6 +
        (b.toNat % 16 * 4 + c.toNat / 64) % 64) % 2 ^ 26 * 2 ^ 6 + c.toNat % 64)
    have hlength : (a :: b :: c :: data).length % 3 = data.length % 3 := by
      simp only [length_cons, Nat.add_assoc, Nat.add_mod_right]
    rw [hlength]
    refine ⟨buffer, padding, ?_, hp⟩
    rw [hz, base64DecodeLoop_value _ _ _ _ (by decide)]
    refine base64DecodeLoop_byte (r := (b :: c :: data, buffer, padding)) (by decide) (by omega) ?_
    refine base64DecodeLoop_byte (r := (c :: data, buffer, padding)) (by decide) (by omega) ?_
    exact base64DecodeLoop_byte (p := 2) (r := (data, buffer, padding)) (by decide) (by omega) h

/-- Decoding an encoded byte vector gives the vector, with a byte behind it unless the groups of
three are full. -/
theorem base64Decode_base64Encode (data : List UInt8) :
    ∃ extra, base64Decode (base64Encode data) = data ++ extra ∧
      extra.length = if data.length % 3 = 0 then 0 else 1 := by
  obtain ⟨buffer, padding, h, hp⟩ := base64DecodeLoop_body data 0 0
  simp only [base64Decode, base64Encode, base64DecodeLoop_padding, h]
  rcases hp with ⟨hlen, rfl⟩ | ⟨hlen, rfl, hb⟩ | ⟨hlen, rfl, hb⟩
  · refine ⟨[], ?_, by rw [if_pos hlen]; rfl⟩
    by_cases hd : data = []
    · subst hd; simp
    · simp [hd]
  · simp only [hb, hlen, Nat.reduceLT, and_true, if_true]
    exact ⟨_, if_neg (by simp), rfl⟩
  · simp only [hb, hlen, Nat.reduceLT, and_true, if_true]
    exact ⟨_, if_neg (by simp), rfl⟩

/-- The daemon reads the bit of the encoded vector whose position is the low 16 bits of the one it
asks for. -/
theorem getBitset_decompressBitset_mod
    (hi : i % 2 ^ 16 / 8 < data.length) :
    getBitset (decompressBitset (compressBitset data)) i = hasBit data (i % 2 ^ 16) := by
  obtain ⟨extra, h, -⟩ := base64Decode_base64Encode data
  rw [getBitset, decompressBitset, compressBitset, h, hasBit, hasBit,
    getD_eq_getElem?_getD, getD_eq_getElem?_getD, getElem?_append_left hi]

/-! ## Whether the text form is lossless -/

/-- The characters of the text stand for their bytes, four for a full group of three. -/
theorem base64Body_length : ∀ (data : List UInt8) (x : Nat),
    (base64Body data x 0).length = (4 * data.length + 2) / 3
  | [], x => by simp [base64Body, base64EncodeLoop]
  | [a], x => by rw [base64Body_one]; simp
  | [a, b], x => by rw [base64Body_two]; simp
  | a :: b :: c :: data, x => by
    obtain ⟨y, hy⟩ := base64Body_three a b c data x
    simp only [hy, length_cons, base64Body_length data y]
    omega

theorem base64Char_mem (n : Nat) : base64Char n ∈ base64Chars :=
  isSome_idxOf?.1 (by rw [(base64Char_spec n).2]; rfl)

theorem base64Drain_mem (buffer padding : Nat) :
    ∀ c ∈ (base64Drain buffer padding).1, c ∈ base64Chars := by
  fun_induction base64Drain buffer padding with
  | case1 padding r ih =>
    intro c hc
    rcases mem_cons.1 hc with rfl | hc
    · exact base64Char_mem _
    · exact ih c hc
  | case2 => exact fun c hc => absurd hc not_mem_nil

theorem base64EncodeLoop_mem (data : List UInt8) (buffer padding : Nat) :
    ∀ c ∈ (base64EncodeLoop data buffer padding).1, c ∈ base64Chars := by
  induction data generalizing buffer padding with
  | nil => exact fun c hc => absurd hc not_mem_nil
  | cons byte data ih =>
    intro c hc
    rw [base64EncodeLoop] at hc
    rcases mem_append.1 hc with hc | hc
    · exact base64Drain_mem _ _ c hc
    · exact ih _ _ c hc

/-- All characters are of the alphabet. -/
theorem base64Body_mem (data : List UInt8) (buffer padding : Nat) :
    ∀ c ∈ base64Body data buffer padding, c ∈ base64Chars := by
  intro c hc
  rw [base64Body] at hc
  split at hc
  · rcases mem_append.1 hc with hc | hc
    · exact base64EncodeLoop_mem _ _ _ c hc
    · rw [mem_singleton.1 hc]
      exact base64Char_mem _
  · exact base64EncodeLoop_mem _ _ _ c hc

/-- Different byte vectors have different texts, since the loop of the decoder pushes the vector. -/
theorem base64Encode_injective {v w : List UInt8} (h : base64Encode v = base64Encode w) :
    v = w := by
  have hloop : ∀ data, (base64DecodeLoop (base64Encode data) 0 0).1 = data := fun data => by
    obtain ⟨buffer, padding, hdata, -⟩ := base64DecodeLoop_body data 0 0
    rw [base64Encode, base64DecodeLoop_padding, hdata]
  rw [← hloop v, h, hloop w]

/-- A byte vector survives its text form, the text is characters of the alphabet and at most two
padding characters, four to a group, and no other vector has it. -/
structure LosslessText (v : List UInt8) : Prop where
  roundTrip : base64Decode (base64Encode v) = v
  alphabet : ∃ body k, base64Encode v = body ++ List.replicate k '=' ∧
    (∀ c ∈ body, c ∈ base64Chars) ∧ k ≤ 2
  length : 4 ∣ (base64Encode v).length
  injective : ∀ w, base64Encode w = base64Encode v → w = v

/-- The text form of a byte vector is lossless if and only if its groups of three are full: of
another vector the decoder makes a byte more. -/
theorem losslessText_iff (v : List UInt8) : LosslessText v ↔ v.length % 3 = 0 := by
  obtain ⟨extra, hdecode, hextra⟩ := base64Decode_base64Encode v
  have hlength := base64Body_length v 0
  constructor
  · intro h
    have hnil := h.roundTrip
    rw [hdecode, append_right_eq_self] at hnil
    by_contra hne
    rw [hnil, if_neg hne] at hextra
    exact absurd hextra (by decide)
  · intro hlen
    rw [if_pos hlen, length_eq_zero_iff] at hextra
    refine ⟨by rw [hdecode, hextra, append_nil], ⟨_, _, rfl, base64Body_mem v 0 0, ?_⟩, ?_,
      fun w hw => base64Encode_injective hw⟩
    · omega
    · rw [base64Encode, length_append, length_replicate]
      omega

/-- A vector of one byte comes back with a second one. -/
theorem losslessText_fails :
    base64Encode [1] = "AQ==".toList ∧ base64Decode "AQ==".toList = [1, 0] ∧
      ¬ LosslessText [1] :=
  ⟨by decide +kernel, by decide +kernel, fun h => absurd h.roundTrip (by decide +kernel)⟩

end GekkoFS
