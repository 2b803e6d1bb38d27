import LetCalc.Proofs.Input.Decoding

/-!
# Slices of a byte sequence

Decoding splits a sequence of bytes into slices, one for each item: the encoding of a character, a
byte that starts no encoding, an encoding that is cut short, or a sequence that is complete but
spells no character.  Which slices these are does not depend on the decoder.

Main results:

- Definition `Glyph.StandsFor`: what a glyph says about its slice and the bytes behind it.
- Theorem `Utf8.char?_eq_none_iff`: which complete sequences spell no character.
- Theorems `exists_standsFor` and `Input.next_of_standsFor`: some glyph stands at the front of the
  bytes, and it is the next item.
- Theorem `Input.Split.text_eq`: the glyphs of a text.
- Theorem `Input.Split.append`: a byte that continues nothing starts a new slice.
- Theorem `Input.decodes_exactly`: the items of a byte sequence are those of its slices.
-/

namespace LetCalc

namespace Utf8

/-! ## What a first byte requires -/

/-- Some character is encoded in `n` bytes of which `b` is the first. -/
def Requires (b : UInt8) (n : Nat) : Prop :=
  ∃ c more, String.utf8EncodeChar c = b :: more ∧ more.length + 1 = n

/-- What holds of the bytes of an encoding. -/
theorem of_encode_eq {c : Char} {first : UInt8} {more : List UInt8}
    (h : String.utf8EncodeChar c = first :: more) :
    length? first = some (more.length + 1) ∧ (∀ b ∈ more, isContinuation b = true) ∧
      codePoint first more = c.toNat ∧ least (more.length + 1) ≤ c.toNat := by
  rcases encode_spec c with ⟨first', more', hencode, hspec⟩
  cases h.symm.trans hencode
  exact hspec

/-- The table of lengths says what a first byte requires. -/
theorem requires_iff {b : UInt8} {n : Nat} : Requires b n ↔ length? b = some n := by
  constructor
  · rintro ⟨c, more, hencode, rfl⟩
    exact (of_encode_eq hencode).1
  · intro hlength
    -- A continuation of each first byte; those of E0 and F0 must not be overlong.
    have hall : ∀ k < 256, ∀ n ∈ length? (UInt8.ofNat k),
        ∃ more ∈ [[], [0x80], [0xa0, 0x80], [0x80, 0x80], [0x90, 0x80, 0x80], [0x80, 0x80, 0x80]],
          more.length + 1 = n ∧ (char? (UInt8.ofNat k) more).isSome = true := by
      decide +kernel
    have hbyte := hall b.toNat b.toNat_lt
    rw [UInt8.ofNat_toNat] at hbyte
    rcases hbyte n hlength with ⟨more, -, hmore, hchar⟩
    rcases Option.isSome_iff_exists.1 hchar with ⟨c, hc⟩
    exact ⟨c, more, encode_of_char?_eq_some hc, hmore⟩

/-! ## Complete sequences -/

/-- The first bytes of sequences of each length. -/
theorem first_of_length? {b : UInt8} {n : Nat} (h : length? b = some n) :
    n = 1 ∧ b.toNat ≤ 0x7f ∨ n = 2 ∧ 0xc2 ≤ b.toNat ∧ b.toNat ≤ 0xdf ∨
      n = 3 ∧ 0xe0 ≤ b.toNat ∧ b.toNat ≤ 0xef ∨ n = 4 ∧ 0xf0 ≤ b.toNat ∧ b.toNat ≤ 0xf4 := by
  have hlength := length?_ofNat b.toNat_lt
  rw [UInt8.ofNat_toNat, h] at hlength
  split at hlength
  · cases hlength
    omega
  repeat' split at hlength
  all_goals cases hlength
  all_goals omega

/-- The number that a sequence spells is overlong, a surrogate, or past the last code point. -/
def IllFormed (first : UInt8) (more : List UInt8) : Prop :=
  codePoint first more < least (more.length + 1) ∨
    0xd800 ≤ codePoint first more ∧ codePoint first more ≤ 0xdfff ∨
    0x10ffff < codePoint first more

/-- A complete sequence that is not ill formed is the encoding of the character that it spells. -/
theorem encode_of_not_illFormed {first : UInt8} {more : List UInt8}
    (hlength : length? first = some (more.length + 1))
    (hmore : ∀ b ∈ more, isContinuation b = true) (h : ¬ IllFormed first more) :
    String.utf8EncodeChar (Char.ofNat (codePoint first more)) = first :: more := by
  have hvalid : (codePoint first more).isValidChar := by
    simp only [IllFormed] at h
    simp only [Nat.isValidChar]
    omega
  have hnat : (Char.ofNat (codePoint first more)).toNat = codePoint first more := by
    rw [Char.ofNat, dif_pos hvalid]
    rfl
  have hleast : least (more.length + 1) ≤ codePoint first more :=
    Nat.le_of_not_lt fun hlt => h (Or.inl hlt)
  have hfirst := first_of_length? hlength
  have hbyte : ∀ {n : Nat} {b : UInt8}, n = b.toNat → UInt8.ofNat n = b := by
    rintro n b rfl
    exact UInt8.ofNat_toNat
  generalize Char.ofNat (codePoint first more) = c at hnat ⊢
  match more with
  | [] =>
    simp only [codePoint, leadingBits, List.foldl_nil, List.length_nil] at hnat hfirst
    rw [encode_one (by omega)]
    simp only [List.cons.injEq, and_true]
    exact hbyte (by omega)
  | [b] =>
    have hb := isContinuation_iff.1 (hmore b (by simp))
    simp only [codePoint, leadingBits, List.foldl_cons, List.foldl_nil, List.length_cons,
      List.length_nil, least] at hnat hfirst hleast
    rw [encode_two (by omega) (by omega)]
    simp only [List.cons.injEq, and_true]
    exact ⟨hbyte (by omega), hbyte (by omega)⟩
  | [b, b'] =>
    have hb := isContinuation_iff.1 (hmore b (by simp))
    have hb' := isContinuation_iff.1 (hmore b' (by simp))
    simp only [codePoint, leadingBits, List.foldl_cons, List.foldl_nil, List.length_cons,
      List.length_nil, least] at hnat hfirst hleast
    rw [encode_three (by omega) (by omega)]
    simp only [List.cons.injEq, and_true]
    exact ⟨hbyte (by omega), hbyte (by omega), hbyte (by omega)⟩
  | [b, b', b''] =>
    have hb := isContinuation_iff.1 (hmore b (by simp))
    have hb' := isContinuation_iff.1 (hmore b' (by simp))
    have hb'' := isContinuation_iff.1 (hmore b'' (by simp))
    simp only [codePoint, leadingBits, List.foldl_cons, List.foldl_nil, List.length_cons,
      List.length_nil, least] at hnat hfirst hleast
    rw [encode_four (by omega)]
    simp only [List.cons.injEq, and_true]
    exact ⟨hbyte (by omega), hbyte (by omega), hbyte (by omega), hbyte (by omega)⟩
  | _ :: _ :: _ :: _ :: _ =>
    simp only [List.length_cons] at hfirst
    omega

/-- A complete sequence spells no character exactly if it is ill formed. -/
theorem char?_eq_none_iff {first : UInt8} {more : List UInt8}
    (hlength : length? first = some (more.length + 1))
    (hmore : ∀ b ∈ more, isContinuation b = true) :
    char? first more = none ↔ IllFormed first more := by
  constructor
  · intro hnone
    refine Classical.byContradiction fun hwell => ?_
    simp [char?, encode_of_not_illFormed hlength hmore hwell] at hnone
  · intro hill
    cases hchar : char? first more with
    | none => rfl
    | some c =>
      exfalso
      rcases of_encode_eq (encode_of_char?_eq_some hchar) with ⟨-, -, hspells, hleast⟩
      have hvalid := c.valid
      have hval : c.val.toNat = c.toNat := rfl
      simp only [UInt32.isValidChar, Nat.isValidChar] at hvalid
      simp only [IllFormed, hspells] at hill
      omega

end Utf8

/-! ## Glyphs and their slices -/

/-- The glyph stands for the bytes `slice` in front of `following`: a character for its encoding, a
bad start for a byte that starts no encoding, a truncated sequence for fewer bytes than its first
one requires, up to a byte that continues nothing or the end, and an ill-formed sequence for as many
bytes as its first one requires, none of which is missing. -/
def Glyph.StandsFor (slice following : List UInt8) : Glyph → Prop
  | .char c => slice = String.utf8EncodeChar c
  | .malformed (.badStart b) => slice = [b] ∧ ∀ n, ¬ Utf8.Requires b n
  | .malformed (.truncated b) => ∃ more n, slice = b :: more ∧
      (∀ b' ∈ more, Utf8.isContinuation b' = true) ∧ Utf8.Requires b n ∧ more.length + 1 < n ∧
      ∀ b' ∈ following.head?, Utf8.isContinuation b' = false
  | .malformed .illFormed => ∃ b more, slice = b :: more ∧
      (∀ b' ∈ more, Utf8.isContinuation b' = true) ∧ Utf8.Requires b (more.length + 1) ∧
      Utf8.IllFormed b more

namespace Glyph

theorem StandsFor.ne_nil {slice following : List UInt8} {g : Glyph}
    (h : g.StandsFor slice following) : slice ≠ [] := by
  rcases g with c | b | b | -
  · rcases Utf8.encode_spec c with ⟨first, more, hencode, -⟩
    rw [StandsFor, hencode] at h
    simp [h]
  · simp [h.1]
  · rcases h with ⟨more, n, rfl, -⟩
    simp
  · rcases h with ⟨b, more, rfl, -⟩
    simp

/-- Only the first of the bytes behind a slice matters. -/
theorem StandsFor.append {slice following bytes : List UInt8} {g : Glyph}
    (h : g.StandsFor slice following)
    (hbytes : ∀ b ∈ bytes.head?, Utf8.isContinuation b = false) :
    g.StandsFor slice (following ++ bytes) := by
  rcases g with c | b | b | -
  · exact h
  · exact h
  · rcases h with ⟨more, n, hslice, hmore, hrequires, hlt, hnext⟩
    refine ⟨more, n, hslice, hmore, hrequires, hlt, ?_⟩
    cases following with
    | nil => exact hbytes
    | cons b' rest => exact hnext
  · exact h

end Glyph

/-- Up to `n` continuation bytes stand at the front of any bytes: as many as that, or all up to a
byte that continues nothing. -/
theorem exists_continuation (n : Nat) (bytes : List UInt8) :
    ∃ more following, bytes = more ++ following ∧
      (∀ b ∈ more, Utf8.isContinuation b = true) ∧ more.length ≤ n ∧
      (more.length = n ∨ ∀ b ∈ following.head?, Utf8.isContinuation b = false) := by
  induction n generalizing bytes with
  | zero => exact ⟨[], bytes, rfl, by simp, Nat.le_refl 0, Or.inl rfl⟩
  | succ n ih =>
    cases bytes with
    | nil => exact ⟨[], [], rfl, by simp, Nat.zero_le _, Or.inr (by simp)⟩
    | cons b bytes =>
      cases hb : Utf8.isContinuation b with
      | false => exact ⟨[], b :: bytes, rfl, by simp, Nat.zero_le _, Or.inr (by simp [hb])⟩
      | true =>
        rcases ih bytes with ⟨more, following, rfl, hmore, hle, hstop⟩
        refine ⟨b :: more, following, rfl, ?_, Nat.succ_le_succ hle, hstop.imp_left (congrArg _)⟩
        simpa [hb] using hmore

/-- Some glyph stands at the front of any bytes. -/
theorem exists_standsFor (b : UInt8) (bytes : List UInt8) :
    ∃ (g : Glyph) (slice following : List UInt8), b :: bytes = slice ++ following ∧
      g.StandsFor slice following := by
  cases hlength : Utf8.length? b with
  | none =>
    refine ⟨.malformed (.badStart b), [b], bytes, rfl, rfl, ?_⟩
    intro n hrequires
    cases hlength.symm.trans (Utf8.requires_iff.1 hrequires)
  | some n =>
    rcases exists_continuation (n - 1) bytes with ⟨more, following, rfl, hmore, hle, hstop⟩
    have hpos : 0 < n := by
      rcases Utf8.first_of_length? hlength with h | h | h | h <;> omega
    by_cases hfull : more.length = n - 1
    · have hcomplete : Utf8.length? b = some (more.length + 1) := by
        rw [hlength, hfull, Nat.sub_add_cancel hpos]
      cases hchar : Utf8.char? b more with
      | some c =>
        refine ⟨.char c, b :: more, following, rfl, ?_⟩
        exact (Utf8.encode_of_char?_eq_some hchar).symm
      | none =>
        refine ⟨.malformed .illFormed, b :: more, following, rfl, b, more, rfl, hmore, ?_, ?_⟩
        · exact Utf8.requires_iff.2 hcomplete
        · exact (Utf8.char?_eq_none_iff hcomplete hmore).1 hchar
    · refine ⟨.malformed (.truncated b), b :: more, following, rfl, more, n, rfl, hmore, ?_, ?_, ?_⟩
      · exact Utf8.requires_iff.2 hlength
      · omega
      · exact hstop.resolve_left hfull

theorem Item.error?_eq_none_iff {item : Item} :
    item.error? = none ↔ ∃ c, item = .glyph (.char c) := by
  rcases item with (c | fault) | reason <;> simp [error?]

namespace Input

theorem ofBytes_cons (b : UInt8) (bytes : List UInt8) :
    ofBytes (b :: bytes) = .byte b :: ofBytes bytes := rfl

/-- What stands behind the continuation bytes of a sequence is no such byte, if this holds of the
first byte behind them and, where no byte is left, of the rest of the input. -/
theorem isContinuation_head?_append {bytes : List UInt8} {rest : Input}
    (h : ∀ b ∈ bytes.head?, Utf8.isContinuation b = false)
    (hrest : ∀ b, rest.head? = some (.byte b) → Utf8.isContinuation b = false) {b : UInt8}
    (hb : (ofBytes bytes ++ rest).head? = some (.byte b)) : Utf8.isContinuation b = false := by
  cases bytes with
  | nil => exact hrest b hb
  | cons b' bytes =>
    cases hb
    exact h b rfl

/-- The glyph that stands at the front of some bytes is the next item, whatever comes behind them,
unless this goes on with the last sequence: a byte that continues it, or a failure where it lacks
one. -/
theorem next_of_standsFor_append {g : Glyph} {slice following : List UInt8} {rest : Input}
    (h : g.StandsFor slice following)
    (hbyte : ∀ b, rest.head? = some (.byte b) → Utf8.isContinuation b = false)
    (hfailed : following = [] → ∀ b reason, g = .malformed (.truncated b) →
      rest.head? ≠ some (.failed reason)) :
    next (ofBytes (slice ++ following) ++ rest) = (some (.glyph g), ofBytes following ++ rest) := by
  rw [ofBytes_append, List.append_assoc]
  rcases g with c | b | b | -
  · rw [show slice = _ from h]
    exact next_encode c _
  · rcases h with ⟨rfl, hnot⟩
    rw [ofBytes_cons, List.cons_append, next]
    split
    · next n hlength => exact absurd (Utf8.requires_iff.2 hlength) (hnot _)
    · rfl
  · rcases h with ⟨more, n, rfl, hmore, hrequires, hlt, hnext⟩
    rcases Nat.exists_eq_add_one_of_ne_zero (Nat.ne_zero_of_lt hlt) with ⟨less, rfl⟩
    have htake : takeContinuation less (ofBytes more ++ (ofBytes following ++ rest))
        = (more, ofBytes following ++ rest) :=
      takeContinuation_ofBytes hmore (Nat.le_of_lt (Nat.lt_of_succ_lt_succ hlt))
        (Or.inr fun _ => isContinuation_head?_append hnext hbyte)
    have hshort : more.length ≠ less := Nat.ne_of_lt (Nat.lt_of_succ_lt_succ hlt)
    rw [ofBytes_cons, List.cons_append, next, Utf8.requires_iff.1 hrequires]
    simp only [decodeFrom, htake, hshort, if_false]
    split
    · next reason rest' heq =>
      -- A read can fail only where no byte follows.
      cases following with
      | nil =>
        have hhead : rest.head? = some (.failed reason) := congrArg List.head? heq
        exact absurd hhead (hfailed rfl b reason rfl)
      | cons b' following => cases heq
    · rfl
  · rcases h with ⟨b, more, rfl, hmore, hrequires, hill⟩
    have hlength := Utf8.requires_iff.1 hrequires
    have htake : takeContinuation more.length (ofBytes more ++ (ofBytes following ++ rest))
        = (more, ofBytes following ++ rest) :=
      takeContinuation_ofBytes hmore (Nat.le_refl _) (Or.inl rfl)
    have hchar := (Utf8.char?_eq_none_iff hlength hmore).2 hill
    rw [ofBytes_cons, List.cons_append, next, hlength]
    simp [decodeFrom, htake, hchar]

/-- The glyph that stands at the front of some bytes is the next item. -/
theorem next_of_standsFor {g : Glyph} {slice following : List UInt8}
    (h : g.StandsFor slice following) :
    next (ofBytes (slice ++ following)) = (some (.glyph g), ofBytes following) := by
  have hnext : next (ofBytes (slice ++ following) ++ [])
      = (some (.glyph g), ofBytes following ++ []) :=
    next_of_standsFor_append h (by simp) (by simp)
  rwa [List.append_nil, List.append_nil] at hnext

theorem ofBytes_injective {xs ys : List UInt8} (h : ofBytes xs = ofBytes ys) : xs = ys :=
  (List.map_inj_right fun _ _ => Event.byte.inj).1 h

/-- What stands at the front of some bytes is one glyph and one slice. -/
theorem standsFor_unique {g g' : Glyph} {slice slice' following following' : List UInt8}
    (h : g.StandsFor slice following) (h' : g'.StandsFor slice' following')
    (hbytes : slice ++ following = slice' ++ following') :
    g = g' ∧ slice = slice' ∧ following = following' := by
  have hnext := next_of_standsFor h
  rw [hbytes, next_of_standsFor h'] at hnext
  simp only [Prod.mk.injEq, Option.some.injEq, Item.glyph.injEq] at hnext
  have hfollowing := ofBytes_injective hnext.2
  rw [hfollowing] at hbytes
  exact ⟨hnext.1.symm, List.append_cancel_right hbytes, hfollowing.symm⟩

/-! ## Splitting all bytes -/

/-- The bytes fall into slices, each with the glyph that stands for it in front of the rest. -/
inductive Split : List UInt8 → List (Glyph × List UInt8) → Prop where
  | nil : Split [] []
  | cons {g : Glyph} {slice bytes : List UInt8} {slices : List (Glyph × List UInt8)}
      (front : g.StandsFor slice bytes) (rest : Split bytes slices) :
      Split (slice ++ bytes) ((g, slice) :: slices)

/-- All bytes fall into slices. -/
theorem exists_split (bytes : List UInt8) : ∃ slices, Split bytes slices := by
  induction hlength : bytes.length using Nat.strongRecOn generalizing bytes with
  | _ length ih =>
    subst hlength
    cases bytes with
    | nil => exact ⟨[], .nil⟩
    | cons b bytes =>
      rcases exists_standsFor b bytes with ⟨g, slice, following, hbytes, hfront⟩
      have hlt : following.length < (b :: bytes).length := by
        have hpos := List.length_pos_iff.2 hfront.ne_nil
        rw [hbytes, List.length_append]
        omega
      rcases ih _ hlt following rfl with ⟨slices, hrest⟩
      rw [hbytes]
      exact ⟨(g, slice) :: slices, .cons hfront hrest⟩

namespace Split

variable {bytes : List UInt8} {slices : List (Glyph × List UInt8)}

/-- The slices cover every byte once. -/
theorem flatMap_snd (h : Split bytes slices) : slices.flatMap Prod.snd = bytes := by
  induction h with
  | nil => rfl
  | cons front rest ih => rw [List.flatMap_cons, ih]

/-- The slices of some bytes are unique. -/
theorem unique {slices' : List (Glyph × List UInt8)} (h : Split bytes slices)
    (h' : Split bytes slices') : slices' = slices := by
  induction h generalizing slices' with
  | nil =>
    generalize hbytes : [] = bytes at h'
    cases h' with
    | nil => rfl
    | cons front rest => exact absurd (List.append_eq_nil_iff.1 hbytes.symm).1 front.ne_nil
  | @cons g slice bytes slices front rest ih =>
    generalize hbytes : slice ++ bytes = all at h'
    cases h' with
    | nil => exact absurd (List.append_eq_nil_iff.1 hbytes).1 front.ne_nil
    | cons front' rest' =>
      rcases standsFor_unique front front' hbytes with ⟨rfl, rfl, rfl⟩
      rw [ih rest']

/-- A byte that continues nothing starts a new slice, whatever stands in front of it. -/
theorem append {bytes' : List UInt8} {slices' : List (Glyph × List UInt8)} (h : Split bytes slices)
    (h' : Split bytes' slices') (hbytes' : ∀ b ∈ bytes'.head?, Utf8.isContinuation b = false) :
    Split (bytes ++ bytes') (slices ++ slices') := by
  induction h with
  | nil => exact h'
  | cons front rest ih =>
    rw [List.append_assoc]
    exact .cons (front.append hbytes') ih

/-- Each slice is nonempty, and it is the encoding of a character exactly if its glyph is this
character. -/
theorem of_mem (h : Split bytes slices) {g : Glyph} {slice : List UInt8}
    (hmem : (g, slice) ∈ slices) :
    slice ≠ [] ∧ ∀ c, g = .char c ↔ slice = String.utf8EncodeChar c := by
  induction h with
  | nil => cases hmem
  | @cons _ _ following _ front rest ih =>
    rcases List.mem_cons.1 hmem with heq | hmem
    · cases heq
      refine ⟨front.ne_nil, fun c => ⟨?_, ?_⟩⟩
      · rintro rfl
        exact front
      · intro hencode
        have hchar : (Glyph.char c).StandsFor slice following := hencode
        exact (standsFor_unique front hchar rfl).1
    · exact ih hmem

/-- The slices of encoded characters are their encodings. -/
theorem encode (cs : List Char) :
    Split (cs.flatMap String.utf8EncodeChar)
      (cs.map fun c => (.char c, String.utf8EncodeChar c)) := by
  induction cs with
  | nil => exact .nil
  | cons c cs ih =>
    have hfront : (Glyph.char c).StandsFor (String.utf8EncodeChar c)
        (cs.flatMap String.utf8EncodeChar) := rfl
    exact .cons hfront ih

/-- Bytes whose glyphs are all characters are the encoding of a text. -/
theorem exists_chars (h : Split bytes slices) (hchars : ∀ s ∈ slices, ∃ c, s.1 = .char c) :
    ∃ cs : List Char, bytes = cs.flatMap String.utf8EncodeChar := by
  induction h with
  | nil => exact ⟨[], rfl⟩
  | cons front rest ih =>
    rcases ih fun s hs => hchars s (List.mem_cons_of_mem _ hs) with ⟨cs, rfl⟩
    rcases hchars _ (List.mem_cons_self ..) with ⟨c, rfl⟩
    exact ⟨c :: cs, congrArg (· ++ _) front⟩

/-- The text of some bytes is made of the glyphs of their slices. -/
theorem text_eq (h : Split bytes slices) :
    (ofBytes bytes).text = ⟨slices.map Prod.fst, none⟩ := by
  have hfrom : ∀ glyphs : Array Glyph,
      textFrom glyphs (ofBytes bytes) = ⟨glyphs.toList ++ slices.map Prod.fst, none⟩ := by
    induction h with
    | nil =>
      intro glyphs
      rw [List.map_nil, List.append_nil]
      exact textFrom_nil glyphs
    | cons front rest ih =>
      intro glyphs
      rw [textFrom_glyph glyphs (next_of_standsFor front), ih]
      simp
  exact hfrom #[]

end Split

/-- No failure cuts off what is given as bytes. -/
theorem failure_text_ofBytes (bytes : List UInt8) : (ofBytes bytes).text.failure = none := by
  rcases exists_split bytes with ⟨slices, hsplit⟩
  rw [hsplit.text_eq]

/-- A text that is given as its bytes is read as its characters. -/
theorem text_ofString (s : String) : (ofString s).text = ⟨s.toList.map .char, none⟩ := by
  have hencode : s.toByteArray = s.toList.utf8Encode := by
    rw [← String.toByteArray_ofList, String.ofList_toList]
  rw [ofString, hencode, List.utf8Encode, List.toList_data_toByteArray,
    (Split.encode s.toList).text_eq, List.map_map]
  rfl

theorem answersFrom_item {input rest : Input} {item : Item} (ends : Nat)
    (acc : Array (Option Item)) (h : next input = (some item, rest)) :
    answersFrom (ends + 1) input acc = answersFrom (ends + 1) rest (acc.push (some item)) := by
  rw [answersFrom]
  split <;> simp_all

theorem answersFrom_end {input rest : Input} (ends : Nat) (acc : Array (Option Item))
    (h : next input = (none, rest)) :
    answersFrom (ends + 1) input acc = answersFrom ends rest (acc.push none) := by
  rw [answersFrom]
  split <;> simp_all

/-- Answers are added behind those already given. -/
theorem answersFrom_append (ends : Nat) (input : Input) (acc : Array (Option Item)) :
    ∃ more, (answersFrom ends input acc).toList = acc.toList ++ more := by
  fun_induction answersFrom ends input acc with
  | case1 => exact ⟨[], (List.append_nil _).symm⟩
  | case2 input acc ends rest h ih | case3 input acc ends item rest h ih =>
    rcases ih with ⟨more, hmore⟩
    rw [Array.toList_push, List.append_assoc] at hmore
    exact ⟨_, hmore⟩

/-- The glyphs of a text are the answers up to the first that is none. -/
theorem answersFrom_text (glyphs : Array Glyph) (input : Input) (acc : Array (Option Item)) :
    ∃ items more, (textFrom glyphs input).glyphs = glyphs.toList ++ items ∧
      (answersFrom 1 input acc).toList
        = acc.toList ++ (items.map (fun g => some (.glyph g)) ++ more) ∧
      ∀ g, more.head? ≠ some (some (.glyph g)) := by
  fun_induction textFrom glyphs input generalizing acc with
  | case1 glyphs input g rest h ih =>
    rcases ih (acc.push (some (.glyph g))) with ⟨items, more, htext, hanswers, hmore⟩
    refine ⟨g :: items, more, ?_, ?_, hmore⟩
    · rw [htext]
      simp
    · rw [answersFrom_item 0 acc h, hanswers]
      simp
  | case2 glyphs input reason rest h =>
    rcases answersFrom_append 1 rest (acc.push (some (.failed reason))) with ⟨more, hmore⟩
    refine ⟨[], some (.failed reason) :: more, by simp, ?_, by simp⟩
    rw [answersFrom_item 0 acc h, hmore]
    simp
  | case3 glyphs input rest h =>
    refine ⟨[], [none], by simp, ?_, by simp⟩
    rw [answersFrom_end 0 acc h, answersFrom]
    simp

theorem answers_text (input : Input) :
    ∃ more, input.answers 1 = input.text.glyphs.map (fun g => some (.glyph g)) ++ more ∧
      ∀ g, more.head? ≠ some (some (.glyph g)) := by
  rcases answersFrom_text #[] input #[] with ⟨items, more, htext, hanswers, hmore⟩
  obtain rfl : input.text.glyphs = items := htext
  exact ⟨more, hanswers, hmore⟩

/-- The items of some bytes up to their end are the glyphs of their slices. -/
theorem Split.answers_eq {bytes : List UInt8} {slices : List (Glyph × List UInt8)}
    (h : Split bytes slices) :
    (ofBytes bytes).answers 1 = slices.map (fun s => some (.glyph s.1)) ++ [none] := by
  have hfrom : ∀ acc : Array (Option Item), (answersFrom 1 (ofBytes bytes) acc).toList
      = acc.toList ++ (slices.map (fun s => some (.glyph s.1)) ++ [none]) := by
    induction h with
    | nil =>
      intro acc
      rw [answersFrom_end 0 acc rfl, answersFrom]
      simp
    | cons front rest ih =>
      intro acc
      rw [answersFrom_item 0 acc (next_of_standsFor front), ih]
      simp
  exact hfrom #[]

/-- Decoding is exact.  The bytes fall into slices in one way, and the items up to the end are the
glyphs that stand for them: each slice is nonempty, all bytes are covered once, and the item of a
slice is a character exactly if the slice is its encoding.  So no item is an error exactly if the
bytes are the encoding of a text, and then the items are its characters. -/
theorem decodes_exactly (bytes : List UInt8) :
    (∃ slices, (∀ slices', Split bytes slices' ↔ slices' = slices) ∧
      (ofBytes bytes).answers 1 = slices.map (fun s => some (.glyph s.1)) ++ [none] ∧
      slices.flatMap Prod.snd = bytes ∧
      ∀ s ∈ slices, s.2 ≠ [] ∧ ∀ c, s.1 = .char c ↔ s.2 = String.utf8EncodeChar c) ∧
    ((∀ item, some item ∈ (ofBytes bytes).answers 1 → item.error? = none) ↔
      ∃ cs : List Char, bytes = cs.flatMap String.utf8EncodeChar) ∧
    ∀ cs : List Char, bytes = cs.flatMap String.utf8EncodeChar →
      (ofBytes bytes).answers 1 = cs.map (fun c => some (.glyph (.char c))) ++ [none] := by
  rcases exists_split bytes with ⟨slices, hsplit⟩
  have hencoded : ∀ cs : List Char, bytes = cs.flatMap String.utf8EncodeChar →
      (ofBytes bytes).answers 1 = cs.map (fun c => some (.glyph (.char c))) ++ [none] := by
    rintro cs rfl
    rw [(Split.encode cs).answers_eq, List.map_map]
    rfl
  refine ⟨⟨slices, ?_, hsplit.answers_eq, hsplit.flatMap_snd, ?_⟩, ⟨?_, ?_⟩, hencoded⟩
  · intro slices'
    exact ⟨hsplit.unique, fun h => h ▸ hsplit⟩
  · intro s hs
    exact hsplit.of_mem hs
  · intro hclean
    apply hsplit.exists_chars
    intro s hs
    have hitem : some (.glyph s.1) ∈ (ofBytes bytes).answers 1 := by
      rw [hsplit.answers_eq]
      exact List.mem_append_left _ (List.mem_map_of_mem hs)
    rcases Item.error?_eq_none_iff.1 (hclean _ hitem) with ⟨c, hc⟩
    exact ⟨c, Item.glyph.inj hc⟩
  · rintro ⟨cs, hbytes⟩ item hitem
    rw [hencoded cs hbytes] at hitem
    rcases List.mem_append.1 hitem with hitem | hitem
    · rcases List.mem_map.1 hitem with ⟨c, -, hc⟩
      exact Item.error?_eq_none_iff.2 ⟨c, (Option.some.inj hc).symm⟩
    · cases List.mem_singleton.1 hitem

end Input

end LetCalc
