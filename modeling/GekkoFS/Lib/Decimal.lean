import Mathlib.Algebra.Ring.Int.Defs
import Mathlib.Algebra.Ring.Nat
import Mathlib.Data.List.Basic

/-!
# Decimal numerals in character strings

`ofNat` and `ofInt` print a number in decimal, and `scan` is how C's string-to-integer functions
read one: white space is skipped, a sign may follow, then come the digits, and the first character
that is no digit ends the numeral. `stoul` and `stol` are `std::stoul` and `std::stol` on 64-bit
words; both also report how many characters they read, and throw (here: `none`) if there is no
digit or the number is out of range.

A printed number is read back whatever follows it, as long as that does not go on with a digit
(`stoul_ofNat`, `stol_ofNat`, `stol_ofInt`, `stoul_ofInt`).
-/

namespace Decimal

open List

/-- The decimal digits of a number. -/
def ofNat (n : Nat) : List Char := Nat.toDigits 10 n

/-- The decimal digits of an integer, after a minus sign if it is negative. -/
def ofInt (z : Int) : List Char := if z < 0 then '-' :: ofNat z.natAbs else ofNat z.natAbs

/-- The characters that `isspace` accepts. -/
def isSpace (c : Char) : Bool := c = ' ' || (9 ≤ c.toNat && c.toNat ≤ 13)

/-- A numeral read from a string: its sign, its magnitude and the number of characters read. -/
structure Numeral where
  negative : Bool
  magnitude : Nat
  read : Nat
  deriving DecidableEq, Repr

/-- The digits at the front of a string, as a numeral with a given sign that started `before`
characters earlier. -/
def scanDigits (negative : Bool) (before : Nat) (l : List Char) : Option Numeral :=
  match l.takeWhile Char.isDigit with
  | [] => none
  | d :: ds => some ⟨negative, Nat.ofDigitChars 10 (d :: ds) 0, before + (d :: ds).length⟩

/-- A sign, if there is one, and digits. -/
def scanSigned (before : Nat) (l : List Char) : Option Numeral :=
  match l with
  | '-' :: l => scanDigits true (before + 1) l
  | '+' :: l => scanDigits false (before + 1) l
  | l => scanDigits false before l

/-- White space, a sign and digits. -/
def scan (l : List Char) : Option Numeral :=
  scanSigned (l.takeWhile isSpace).length (l.dropWhile isSpace)

/-- `std::stoul`: the value and the number of characters read. A minus sign negates the value as an
unsigned word. -/
def stoul (l : List Char) : Option (Nat × Nat) :=
  (scan l).bind fun x =>
    if x.magnitude < 2 ^ 64 then
      some (if x.negative then (2 ^ 64 - x.magnitude) % 2 ^ 64 else x.magnitude, x.read)
    else none

/-- `std::stol`: the value and the number of characters read. -/
def stol (l : List Char) : Option (Int × Nat) :=
  (scan l).bind fun x =>
    if x.negative then
      if x.magnitude ≤ 2 ^ 63 then some (-(x.magnitude : Int), x.read) else none
    else if x.magnitude < 2 ^ 63 then some ((x.magnitude : Int), x.read)
    else none

/-- The value that `stoul` reads is a 64-bit word. -/
theorem stoul_lt {l : List Char} {n read : Nat} (h : stoul l = some (n, read)) : n < 2 ^ 64 := by
  obtain ⟨x, -, hx⟩ := Option.bind_eq_some_iff.1 h
  split at hx
  · next hlt =>
    cases hx
    split
    · exact Nat.mod_lt _ (by decide)
    · exact hlt
  · cases hx

/-! ## Reading a printed number back -/

/-- A string that does not go on with a digit. -/
def Stops (l : List Char) : Prop := ∀ c t, l = c :: t → c.isDigit = false

/-- Digits end with the text. -/
theorem Stops.nil : Stops [] := fun _ _ h => by cases h

/-- Digits end before another character. -/
theorem Stops.cons {c : Char} {l : List Char} (h : c.isDigit = false) : Stops (c :: l) :=
  fun _ _ heq => by cases heq; exact h

variable {rest : List Char}

/-- The digits at the front of a printed number with a tail are the printed number. -/
theorem takeWhile_ofNat_append (n : Nat) (h : Stops rest) :
    (ofNat n ++ rest).takeWhile Char.isDigit = ofNat n := by
  have hdigits : ∀ c ∈ ofNat n, c.isDigit = true := fun c hc =>
    Nat.isDigit_of_mem_toDigits (by omega) (by omega) hc
  rw [takeWhile_append_of_pos hdigits]
  cases rest with
  | nil => simp
  | cons c t => rw [takeWhile_cons_of_neg (by simp [h c t rfl]), append_nil]

/-- The digits of a number are read up to their end. -/
theorem scanDigits_ofNat (negative : Bool) (before n : Nat) (h : Stops rest) :
    scanDigits negative before (ofNat n ++ rest) =
      some ⟨negative, n, before + (ofNat n).length⟩ := by
  rw [scanDigits, takeWhile_ofNat_append n h]
  cases hd : ofNat n with
  | nil => exact absurd hd Nat.toDigits_ne_nil
  | cons d ds =>
    have hn : Nat.ofDigitChars 10 (d :: ds) 0 = n := by
      rw [← hd]; exact Nat.ofDigitChars_ten_toDigits
    simp only [hn]

/-- The first character of a printed number is a digit. -/
theorem ofNat_eq_cons (n : Nat) : ∃ d ds, ofNat n = d :: ds ∧ d.isDigit = true := by
  cases hd : ofNat n with
  | nil => exact absurd hd Nat.toDigits_ne_nil
  | cons d ds =>
    refine ⟨d, ds, rfl, Nat.isDigit_of_mem_toDigits (b := 10) (n := n) (by omega) (by omega) ?_⟩
    have : d ∈ ofNat n := by rw [hd]; exact mem_cons_self
    exact this

/-- A digit is neither white space nor a sign. -/
theorem isSpace_of_isDigit {c : Char} (h : c.isDigit = true) : isSpace c = false := by
  simp only [Char.isDigit, Bool.and_eq_true, decide_eq_true_eq] at h
  have h48 : 48 ≤ c.toNat := h.1
  simp only [isSpace, Bool.or_eq_false_iff, decide_eq_false_iff_not, Bool.and_eq_false_iff]
  exact ⟨by rintro rfl; exact absurd h48 (by decide), .inr (by omega)⟩

/-- A number is read back. -/
theorem scan_ofNat (n : Nat) (h : Stops rest) :
    scan (ofNat n ++ rest) = some ⟨false, n, (ofNat n).length⟩ := by
  obtain ⟨d, ds, hd, hdigit⟩ := ofNat_eq_cons n
  have hspace : isSpace d = false := isSpace_of_isDigit hdigit
  have hminus : d ≠ '-' := by rintro rfl; exact absurd hdigit (by decide)
  have hplus : d ≠ '+' := by rintro rfl; exact absurd hdigit (by decide)
  have hscan := scanDigits_ofNat false 0 n h
  rw [hd, cons_append] at hscan ⊢
  rw [scan, takeWhile_cons_of_neg (by simp [hspace]),
    dropWhile_cons_of_neg (by simp [hspace]), scanSigned]
  · simpa using hscan
  · intro l hl; exact hminus (List.cons.inj hl).1
  · intro l hl; exact hplus (List.cons.inj hl).1

/-- An integer is read back with its sign. -/
theorem scan_ofInt (z : Int) (h : Stops rest) :
    scan (ofInt z ++ rest) = some ⟨decide (z < 0), z.natAbs, (ofInt z).length⟩ := by
  rw [ofInt]
  split
  · next hz =>
    rw [cons_append, scan, takeWhile_cons_of_neg (by decide),
      dropWhile_cons_of_neg (by decide), scanSigned, scanDigits_ofNat true _ _ h]
    simp [hz, Nat.add_comm]
  · next hz => rw [scan_ofNat _ h]; simp [hz]

/-- `stoul` reads a printed number back exactly if it is below `2 ^ 64`. -/
theorem stoul_ofNat (n : Nat) {rest : List Char} (h : Stops rest) :
    stoul (ofNat n ++ rest) = if n < 2 ^ 64 then some (n, (ofNat n).length) else none := by
  rw [stoul, scan_ofNat n h, Option.bind_some]
  simp

/-- `stol` reads a printed number back exactly if it is below `2 ^ 63`. -/
theorem stol_ofNat (n : Nat) (h : Stops rest) :
    stol (ofNat n ++ rest) = if n < 2 ^ 63 then some ((n : Int), (ofNat n).length) else none := by
  rw [stol, scan_ofNat n h, Option.bind_some]
  simp

/-- `stol` reads a printed signed word back. -/
theorem stol_ofInt {z : Int} (hlo : -2 ^ 63 ≤ z) (hhi : z < 2 ^ 63)
    (h : Stops rest) : stol (ofInt z ++ rest) = some (z, (ofInt z).length) := by
  rw [stol, scan_ofInt z h, Option.bind_some]
  by_cases hz : z < 0
  · rw [if_pos (by simpa using hz), if_pos (by show z.natAbs ≤ _; omega)]
    simp only [Option.some.injEq, Prod.mk.injEq, and_true]
    omega
  · rw [if_neg (by simpa using hz), if_pos (by show z.natAbs < _; omega)]
    simp only [Option.some.injEq, Prod.mk.injEq, and_true]
    omega

/-- `stoul` reads a printed signed word as the unsigned word of the same bits. -/
theorem stoul_ofInt {z : Int} (hlo : -2 ^ 63 ≤ z) (hhi : z < 2 ^ 63)
    (h : Stops rest) : stoul (ofInt z ++ rest) = some ((z % 2 ^ 64).toNat, (ofInt z).length) := by
  rw [stoul, scan_ofInt z h, Option.bind_some, if_pos (by show z.natAbs < _; omega)]
  simp only [Option.some.injEq, Prod.mk.injEq, and_true]
  by_cases hz : z < 0
  · rw [if_pos (by simpa using hz)]; omega
  · rw [if_neg (by simpa using hz)]; omega

end Decimal
