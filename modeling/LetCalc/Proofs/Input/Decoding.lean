import LetCalc.Input.Glyph

/-!
# Decoding what was encoded

The bytes that encode a character are decoded as this character and leave the rest of the input
untouched.

Main results:

- Theorem `Utf8.encode_spec`: the encoding of a character announces its own length and spells the
  character.
- Theorem `Input.takeContinuation_ofBytes`: how many continuation bytes are taken.
- Theorem `Input.next_encode`: the next item of an input that starts with an encoded character.
-/

namespace LetCalc

namespace Utf8

theorem toNat_ofNat_of_lt {n : Nat} (h : n < 256) : (UInt8.ofNat n).toNat = n := by
  rw [UInt8.toNat_ofNat']
  exact Nat.mod_eq_of_lt h

/-- How many bytes a first byte announces, by its value. -/
theorem length?_ofNat {n : Nat} (h : n < 256) :
    length? (UInt8.ofNat n)
      = if n ≤ 0x7f then some 1
        else if n < 0xc2 then none
        else if n ≤ 0xdf then some 2
        else if n ≤ 0xef then some 3
        else if n ≤ 0xf4 then some 4
        else none := by
  simp only [length?, UInt8.le_iff_toNat_le, UInt8.lt_iff_toNat_lt, toNat_ofNat_of_lt h]
  rfl

theorem isContinuation_iff {b : UInt8} :
    isContinuation b = true ↔ 0x80 ≤ b.toNat ∧ b.toNat ≤ 0xbf := by
  simp only [isContinuation, Bool.and_eq_true, decide_eq_true_eq, UInt8.le_iff_toNat_le]
  rfl

theorem isContinuation_ofNat (n : Nat) : isContinuation (UInt8.ofNat (n % 64 + 128)) = true := by
  rw [isContinuation_iff, toNat_ofNat_of_lt (by omega)]
  omega

/-- A sequence that is the encoding of the character whose number it spells is read as it. -/
theorem char?_of_codePoint {first : UInt8} {more : List UInt8} {c : Char}
    (hencode : String.utf8EncodeChar c = first :: more) (hspells : codePoint first more = c.toNat) :
    char? first more = some c := by
  rw [char?, hspells, Char.ofNat_toNat]
  exact if_pos hencode

/-! ## Encodings by their length -/

section Encode

variable {c : Char}

theorem encode_one (h : c.toNat < 0x80) : String.utf8EncodeChar c = [UInt8.ofNat c.toNat] := by
  have hval : c.val.toNat = c.toNat := rfl
  simp only [String.utf8EncodeChar, hval]
  rw [if_pos (by omega)]

theorem encode_two (hlow : 0x80 ≤ c.toNat) (hhigh : c.toNat < 0x800) :
    String.utf8EncodeChar c
      = [UInt8.ofNat (c.toNat / 64 % 0x20 + 0xc0), UInt8.ofNat (c.toNat % 0x40 + 0x80)] := by
  have hval : c.val.toNat = c.toNat := rfl
  simp only [String.utf8EncodeChar, hval]
  rw [if_neg (by omega), if_pos (by omega)]

theorem encode_three (hlow : 0x800 ≤ c.toNat) (hhigh : c.toNat < 0x10000) :
    String.utf8EncodeChar c
      = [UInt8.ofNat (c.toNat / 4096 % 0x10 + 0xe0), UInt8.ofNat (c.toNat / 64 % 0x40 + 0x80),
        UInt8.ofNat (c.toNat % 0x40 + 0x80)] := by
  have hval : c.val.toNat = c.toNat := rfl
  simp only [String.utf8EncodeChar, hval]
  rw [if_neg (by omega), if_neg (by omega), if_pos (by omega)]

theorem encode_four (hlow : 0x10000 ≤ c.toNat) :
    String.utf8EncodeChar c
      = [UInt8.ofNat (c.toNat / 262144 % 0x08 + 0xf0), UInt8.ofNat (c.toNat / 4096 % 0x40 + 0x80),
        UInt8.ofNat (c.toNat / 64 % 0x40 + 0x80), UInt8.ofNat (c.toNat % 0x40 + 0x80)] := by
  have hval : c.val.toNat = c.toNat := rfl
  simp only [String.utf8EncodeChar, hval]
  rw [if_neg (by omega), if_neg (by omega), if_neg (by omega)]

end Encode

/-- The smallest number whose encoding takes `n` bytes. -/
def least : Nat → Nat
  | 2 => 0x80
  | 3 => 0x800
  | 4 => 0x10000
  | _ => 0

/-- The encoding of a character announces its own length and spells the character, in no more bytes
than its number takes. -/
theorem encode_spec (c : Char) :
    ∃ first more, String.utf8EncodeChar c = first :: more ∧
      length? first = some (more.length + 1) ∧ (∀ b ∈ more, isContinuation b = true) ∧
        codePoint first more = c.toNat ∧ least (more.length + 1) ≤ c.toNat := by
  have hvalid : c.toNat < 0x110000 := by
    have h := c.valid
    simp only [UInt32.isValidChar, Nat.isValidChar] at h
    have hval : c.val.toNat = c.toNat := rfl
    omega
  -- One case for each length of the encoding.
  rcases Nat.lt_or_ge c.toNat 0x80 with h1 | h1
  · refine ⟨_, _, encode_one h1, ?_, by simp, ?_, Nat.zero_le _⟩
    · rw [length?_ofNat (by omega), if_pos (by omega)]
      rfl
    · simp only [codePoint, leadingBits, List.foldl_nil, List.length_nil]
      rw [toNat_ofNat_of_lt (by omega)]
      omega
  rcases Nat.lt_or_ge c.toNat 0x800 with h2 | h2
  · refine ⟨_, _, encode_two h1 h2, ?_, by simp [isContinuation_ofNat, -UInt8.ofNat_add], ?_, h1⟩
    · rw [length?_ofNat (by omega), if_neg (by omega), if_neg (by omega), if_pos (by omega)]
      rfl
    · simp only [codePoint, leadingBits, List.foldl_cons, List.foldl_nil, List.length_cons,
        List.length_nil]
      rw [toNat_ofNat_of_lt (by omega), toNat_ofNat_of_lt (by omega)]
      omega
  rcases Nat.lt_or_ge c.toNat 0x10000 with h3 | h3
  · refine ⟨_, _, encode_three h2 h3, ?_, by simp [isContinuation_ofNat, -UInt8.ofNat_add], ?_, h2⟩
    · rw [length?_ofNat (by omega), if_neg (by omega), if_neg (by omega), if_neg (by omega),
        if_pos (by omega)]
      rfl
    · simp only [codePoint, leadingBits, List.foldl_cons, List.foldl_nil, List.length_cons,
        List.length_nil]
      rw [toNat_ofNat_of_lt (by omega), toNat_ofNat_of_lt (by omega),
        toNat_ofNat_of_lt (by omega)]
      omega
  · refine ⟨_, _, encode_four h3, ?_, by simp [isContinuation_ofNat, -UInt8.ofNat_add], ?_, h3⟩
    · rw [length?_ofNat (by omega), if_neg (by omega), if_neg (by omega), if_neg (by omega),
        if_neg (by omega), if_pos (by omega)]
      rfl
    · simp only [codePoint, leadingBits, List.foldl_cons, List.foldl_nil, List.length_cons,
        List.length_nil]
      rw [toNat_ofNat_of_lt (by omega), toNat_ofNat_of_lt (by omega),
        toNat_ofNat_of_lt (by omega), toNat_ofNat_of_lt (by omega)]
      omega

end Utf8

namespace Input

theorem ofBytes_append (xs ys : List UInt8) : ofBytes (xs ++ ys) = ofBytes xs ++ ofBytes ys :=
  List.map_append

/-- Continuation bytes are taken up to the number asked for, or up to the first other event. -/
theorem takeContinuation_ofBytes {more : List UInt8} {rest : Input} {n : Nat}
    (hmore : ∀ b ∈ more, Utf8.isContinuation b = true) (hle : more.length ≤ n)
    (hrest : more.length = n ∨ ∀ b, rest.head? = some (.byte b) → Utf8.isContinuation b = false) :
    takeContinuation n (ofBytes more ++ rest) = (more, rest) := by
  induction more generalizing n with
  | nil =>
    rw [ofBytes, List.map_nil, List.nil_append]
    unfold takeContinuation
    split
    · next n b rest =>
      have hb := hrest.resolve_left (Nat.succ_ne_zero n).symm b rfl
      simp [hb]
    · rfl
  | cons b more ih =>
    rcases Nat.exists_eq_add_one_of_ne_zero (Nat.ne_zero_of_lt hle) with ⟨less, rfl⟩
    have hb := hmore b (List.mem_cons_self ..)
    have htake := ih (fun b' hb' => hmore b' (List.mem_cons_of_mem _ hb'))
      (Nat.le_of_succ_le_succ hle) (hrest.imp_left Nat.succ.inj)
    simp only [ofBytes] at htake
    simp [ofBytes, takeContinuation, hb, htake]

/-- An encoded character is the next item. -/
theorem next_encode (c : Char) (rest : Input) :
    next (ofBytes (String.utf8EncodeChar c) ++ rest) = (some (.glyph (.char c)), rest) := by
  rcases Utf8.encode_spec c with ⟨first, more, hencode, hlength, hmore, hspells, -⟩
  have hchar := Utf8.char?_of_codePoint hencode hspells
  have htake : takeContinuation more.length (ofBytes more ++ rest) = (more, rest) :=
    takeContinuation_ofBytes hmore (Nat.le_refl _) (Or.inl rfl)
  have hbytes : ofBytes (first :: more) ++ rest = .byte first :: (ofBytes more ++ rest) := rfl
  rw [hencode, hbytes, next, hlength]
  simp [decodeFrom, htake, hchar]

theorem textFrom_nil (glyphs : Array Glyph) : textFrom glyphs [] = ⟨glyphs.toList, none⟩ := by
  rw [textFrom]
  rfl

theorem textFrom_glyph {input rest : Input} {g : Glyph} (glyphs : Array Glyph)
    (h : next input = (some (.glyph g), rest)) :
    textFrom glyphs input = textFrom (glyphs.push g) rest := by
  rw [textFrom]
  split <;> simp_all

end Input

end LetCalc
