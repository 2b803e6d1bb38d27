/-!
# Numerals

A run of decimal digits read as a 64-bit word, one digit at a time: the word wraps, and a flag
remembers whether the number that the digits spell has outgrown it.

Main results:

- Theorem `Numeral.fits_read_iff`: the flag tells exactly whether the number fits.
- Theorem `Numeral.value_read`: the word is the number modulo the size of words.
-/

namespace LetCalc

/-- A number read so far. -/
structure Numeral where
  /-- The number modulo the size of words. -/
  value : UInt64
  /-- Whether the number is below the size of words. -/
  fits : Bool
deriving DecidableEq, Repr

namespace Numeral

/-- The number before its first digit. -/
def zero : Numeral := ⟨0, true⟩

/-- The number that a digit character stands for. -/
def digit (c : Char) : Nat := c.toNat - '0'.toNat

/-- Appends a digit to a number. -/
def push (n : Numeral) (c : Char) : Numeral :=
  { value := n.value * 10 + UInt64.ofNat (digit c)
    fits := n.fits && n.value.toNat * 10 + digit c < UInt64.size }

/-- The number that a run of digits spells, as a word with its flag. -/
def read (digits : List Char) : Numeral := digits.foldl push zero

/-- The number that a run of digits spells. -/
def decimal (digits : List Char) : Nat := digits.foldl (fun n c => n * 10 + digit c) 0

private theorem foldl_push (digits : List Char) (n : Numeral) (m : Nat)
    (hvalue : n.value.toNat = m % UInt64.size) (hfits : n.fits = decide (m < UInt64.size)) :
    (digits.foldl push n).value.toNat
        = digits.foldl (fun n c => n * 10 + digit c) m % UInt64.size ∧
      (digits.foldl push n).fits
        = decide (digits.foldl (fun n c => n * 10 + digit c) m < UInt64.size) := by
  induction digits generalizing n m with
  | nil => exact ⟨hvalue, hfits⟩
  | cons c rest ih =>
    have hsize : UInt64.size = 18446744073709551616 := rfl
    refine ih (n.push c) (m * 10 + digit c) ?_ ?_
    · have hpush : (n.push c).value.toNat
          = (n.value.toNat * 10 % UInt64.size + digit c % UInt64.size) % UInt64.size := by
        simp only [push, UInt64.toNat_add, UInt64.toNat_mul, UInt64.toNat_ofNat']
        rfl
      rw [hpush, hvalue, hsize]
      omega
    · simp only [push, hvalue, hfits, hsize, ← Bool.decide_and, decide_eq_decide]
      omega

/-- The word is the number modulo the size of words. -/
theorem value_read (digits : List Char) :
    (read digits).value.toNat = decimal digits % UInt64.size :=
  (foldl_push digits zero 0 rfl rfl).1

/-- The flag tells exactly whether the number fits. -/
theorem fits_read_iff (digits : List Char) :
    (read digits).fits = true ↔ decimal digits < UInt64.size := by
  have h := (foldl_push digits zero 0 rfl rfl).2
  rw [read, h]
  exact decide_eq_true_iff

end Numeral

end LetCalc
