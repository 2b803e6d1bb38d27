/-!
# Sets of characters given by ranges

A character class of the Unicode standard is published as a sorted list of inclusive ranges of code
points.  This file reads such a list as a set of characters.

Main results:

- Definition `Ranges.contains`: membership, which stops at the first range that starts past
  the code point.
- Theorem `Ranges.contains_iff`: in a sorted list this is membership in some range.
-/

namespace LetCalc

/-- Inclusive ranges of code points, in increasing order. -/
abbrev Ranges := List (Nat × Nat)

namespace Ranges

/-- Each range is nonempty and ends before the next one starts. -/
def Sorted : Ranges → Prop
  | [] => True
  | [(lo, hi)] => lo ≤ hi
  | (lo, hi) :: (lo', hi') :: rest => lo ≤ hi ∧ hi < lo' ∧ Sorted ((lo', hi') :: rest)

/-- Whether code point `n` lies in one of the ranges.  The search ends at the first range that
starts past `n`. -/
def contains : Ranges → Nat → Bool
  | [], _ => false
  | (lo, hi) :: rest, n => lo ≤ n && (n ≤ hi || contains rest n)

@[simp]
theorem contains_nil (n : Nat) : contains [] n = false := rfl

@[simp]
theorem contains_cons (lo hi : Nat) (rest : Ranges) (n : Nat) :
    contains ((lo, hi) :: rest) n = (decide (lo ≤ n) && (decide (n ≤ hi) || contains rest n)) := rfl

/-- The tail of a sorted list of ranges is sorted. -/
theorem Sorted.tail {r : Nat × Nat} {rest : Ranges} (h : Sorted (r :: rest)) : Sorted rest := by
  cases rest with
  | nil => trivial
  | cons r' rest' => exact h.2.2

/-- Every range after the first starts past the start of the first. -/
theorem Sorted.lt_of_mem {r s : Nat × Nat} {rest : Ranges} (h : Sorted (r :: rest))
    (hs : s ∈ rest) : r.1 < s.1 := by
  induction rest generalizing r with
  | nil => cases hs
  | cons r' rest' ih =>
    have hlt : r.1 < r'.1 := Nat.lt_of_le_of_lt h.1 h.2.1
    rcases List.mem_cons.1 hs with rfl | hs
    · exact hlt
    · exact Nat.lt_trans hlt (ih h.tail hs)

/-- In a sorted list of ranges the early exit loses nothing. -/
theorem contains_iff {ranges : Ranges} (h : Sorted ranges) (n : Nat) :
    contains ranges n = true ↔ ∃ r ∈ ranges, r.1 ≤ n ∧ n ≤ r.2 := by
  induction ranges with
  | nil => simp
  | cons r rest ih =>
    obtain ⟨lo, hi⟩ := r
    simp only [contains_cons, Bool.and_eq_true, Bool.or_eq_true, decide_eq_true_eq, ih h.tail,
      List.mem_cons, exists_eq_or_imp]
    constructor
    · rintro ⟨hlo, hhi | hrest⟩
      · exact Or.inl ⟨hlo, hhi⟩
      · exact Or.inr hrest
    · rintro (⟨hlo, hhi⟩ | ⟨s, hs, hslo, hshi⟩)
      · exact ⟨hlo, Or.inl hhi⟩
      · exact ⟨Nat.le_trans (Nat.le_of_lt (h.lt_of_mem hs)) hslo, Or.inr ⟨s, hs, hslo, hshi⟩⟩

end Ranges

end LetCalc
