/-!
# UTF-8 sequences

How many bytes a first byte announces, which bytes go on with a sequence, and which character a
complete sequence spells.  A sequence is well formed when encoding the character that it spells
gives the sequence back, which leaves out overlong forms, surrogates and numbers past U+10FFFF.

Main results:

- Theorem `Utf8.encode_of_char?_eq_some`: only encodings of characters are accepted.
-/

namespace LetCalc
namespace Utf8

/-- Whether the byte has the form `10xxxxxx` of all bytes but the first of a sequence. -/
def isContinuation (b : UInt8) : Bool := 0x80 ≤ b && b ≤ 0xbf

/-- The number of bytes of a sequence that starts with the byte, if one can. -/
def length? (first : UInt8) : Option Nat :=
  if first ≤ 0x7f then some 1
  else if first < 0xc2 then none
  else if first ≤ 0xdf then some 2
  else if first ≤ 0xef then some 3
  else if first ≤ 0xf4 then some 4
  else none

/-- The bits of a first byte that belong to the code point, when `more` bytes follow it. -/
def leadingBits (first : UInt8) (more : Nat) : Nat :=
  match more with
  | 0 => first.toNat % 128
  | 1 => first.toNat % 32
  | 2 => first.toNat % 16
  | _ => first.toNat % 8

/-- The number that a first byte and its continuation bytes spell, six bits for each of these. -/
def codePoint (first : UInt8) (more : List UInt8) : Nat :=
  more.foldl (fun n b => n * 64 + b.toNat % 64) (leadingBits first more.length)

/-- The character whose encoding is exactly the given sequence. -/
def char? (first : UInt8) (more : List UInt8) : Option Char :=
  let c := Char.ofNat (codePoint first more)
  if String.utf8EncodeChar c = first :: more then some c else none

/-- Only encodings of characters are accepted. -/
theorem encode_of_char?_eq_some {first : UInt8} {more : List UInt8} {c : Char}
    (h : char? first more = some c) : String.utf8EncodeChar c = first :: more := by
  simp only [char?] at h
  split at h
  · next henc => cases h; exact henc
  · cases h

end Utf8
end LetCalc
