import LetCalc.Proofs.Input.Decoding

/-!
# Texts in the order of their bytes

Texts are compared character by character, and each character by its number.  Their encodings are in
the same order when they are compared byte by byte: a larger number is encoded with a larger first
byte, or with the same first byte and larger bytes behind it, and no encoding is the front of
another one.

Main results:

- Theorem `Utf8.encode_lt_encode`: characters are in the order of their encodings, whatever follows.
- Theorem `bytesOf_lt_bytesOf`: texts are in the order of their bytes.
-/

namespace LetCalc

namespace Utf8

/-! ## Characters -/

theorem ofNat_lt_ofNat {m n : Nat} (hm : m < 256) (hn : n < 256) :
    UInt8.ofNat m < UInt8.ofNat n ↔ m < n := by
  rw [UInt8.lt_iff_toNat_lt, toNat_ofNat_of_lt hm, toNat_ofNat_of_lt hn]

theorem ofNat_eq_ofNat {m n : Nat} (hm : m < 256) (hn : n < 256) :
    UInt8.ofNat m = UInt8.ofNat n ↔ m = n := by
  rw [← UInt8.toNat_inj, toNat_ofNat_of_lt hm, toNat_ofNat_of_lt hn]

/-- The first byte of an encoding is small if the encoded number is. -/
theorem exists_first_lt (c : Char) :
    ∃ n more, String.utf8EncodeChar c = UInt8.ofNat n :: more ∧ n < 256 ∧
      (c.toNat < 0x80 → n < 0x80) ∧ (c.toNat < 0x800 → n < 0xe0) ∧
      (c.toNat < 0x10000 → n < 0xf0) := by
  rcases Nat.lt_or_ge c.toNat 0x80 with h1 | h1
  · exact ⟨_, _, encode_one h1, by omega, by omega, by omega, by omega⟩
  rcases Nat.lt_or_ge c.toNat 0x800 with h2 | h2
  · exact ⟨_, _, encode_two h1 h2, by omega, by omega, by omega, by omega⟩
  rcases Nat.lt_or_ge c.toNat 0x10000 with h3 | h3
  · exact ⟨_, _, encode_three h2 h3, by omega, by omega, by omega, by omega⟩
  · exact ⟨_, _, encode_four h3, by omega, by omega, by omega, by omega⟩

/-- Characters are in the order of their encodings, whatever follows. -/
theorem encode_lt_encode {c d : Char} (h : c < d) (xs ys : List UInt8) :
    String.utf8EncodeChar c ++ xs < String.utf8EncodeChar d ++ ys := by
  have hlt : c.toNat < d.toNat := h
  have hvalid : d.toNat < 0x110000 := by
    have hd := d.valid
    simp only [UInt32.isValidChar, Nat.isValidChar] at hd
    have hval : d.val.toNat = d.toNat := rfl
    omega
  rcases exists_first_lt c with ⟨n, more, hencode, hn, hone, htwo, hthree⟩
  -- By the length of the larger encoding; the other one is shorter, and then its first byte is
  -- smaller, or it is as long, and then some byte decides.
  rcases Nat.lt_or_ge d.toNat 0x80 with hd1 | hd1
  · rw [encode_one hd1, encode_one (by omega)]
    simp (disch := omega) only [List.cons_append, List.cons_lt_cons_iff, ofNat_lt_ofNat]
    exact Or.inl hlt
  rcases Nat.lt_or_ge d.toNat 0x800 with hd2 | hd2
  · rw [encode_two hd1 hd2]
    rcases Nat.lt_or_ge c.toNat 0x80 with hc | hc
    · rw [hencode]
      simp (disch := omega) only [List.cons_append, List.cons_lt_cons_iff, ofNat_lt_ofNat]
      omega
    · rw [encode_two hc (by omega)]
      simp (disch := omega) only [List.cons_append, List.cons_lt_cons_iff, ofNat_lt_ofNat,
        ofNat_eq_ofNat]
      omega
  rcases Nat.lt_or_ge d.toNat 0x10000 with hd3 | hd3
  · rw [encode_three hd2 hd3]
    rcases Nat.lt_or_ge c.toNat 0x800 with hc | hc
    · rw [hencode]
      simp (disch := omega) only [List.cons_append, List.cons_lt_cons_iff, ofNat_lt_ofNat]
      omega
    · rw [encode_three hc (by omega)]
      simp (disch := omega) only [List.cons_append, List.cons_lt_cons_iff, ofNat_lt_ofNat,
        ofNat_eq_ofNat]
      omega
  · rw [encode_four hd3]
    rcases Nat.lt_or_ge c.toNat 0x10000 with hc | hc
    · rw [hencode]
      simp (disch := omega) only [List.cons_append, List.cons_lt_cons_iff, ofNat_lt_ofNat]
      omega
    · rw [encode_four hc]
      simp (disch := omega) only [List.cons_append, List.cons_lt_cons_iff, ofNat_lt_ofNat,
        ofNat_eq_ofNat]
      have hdigits : ∀ n, n / 4096 = n / 64 / 64 ∧ n / 262144 = n / 64 / 64 / 64 := by omega
      simp only [hdigits]
      omega

end Utf8

/-! ## Texts -/

/-- The bytes of a text. -/
def bytesOf (s : String) : List UInt8 := s.toByteArray.data.toList

theorem bytesOf_eq_flatMap (s : String) :
    bytesOf s = s.toList.flatMap String.utf8EncodeChar := by
  rw [bytesOf, ← String.ofList_toList (s := s), String.toByteArray_ofList, String.toList_ofList]
  simp [List.utf8Encode]

theorem flatMap_encode_lt {cs ds : List Char} (h : cs < ds) :
    cs.flatMap String.utf8EncodeChar < ds.flatMap String.utf8EncodeChar := by
  induction h with
  | @nil d ds =>
    rcases Utf8.encode_spec d with ⟨first, more, hencode, -⟩
    rw [List.flatMap_nil, List.flatMap_cons, hencode]
    exact List.nil_lt_cons ..
  | @cons c cs ds _ ih =>
    rw [List.flatMap_cons, List.flatMap_cons]
    exact List.append_left_lt ih
  | @rel c cs d ds hlt =>
    rw [List.flatMap_cons, List.flatMap_cons]
    exact Utf8.encode_lt_encode hlt ..

/-- Texts are in the order of their bytes. -/
theorem bytesOf_lt_bytesOf {s t : String} (h : s < t) : bytesOf s < bytesOf t := by
  rw [bytesOf_eq_flatMap, bytesOf_eq_flatMap]
  exact flatMap_encode_lt h

end LetCalc
