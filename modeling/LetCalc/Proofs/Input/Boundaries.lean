import LetCalc.Proofs.Input.Stream

/-!
# Where decoding can be cut

Bytes that are decoded in two parts give the same items as all of them at once, unless a sequence
goes over the boundary: the first part ends with a sequence that lacks bytes, and the second part
goes on with it.  So decoding resynchronizes at the next byte that continues nothing, whatever
stands in front of it, and a character that follows is neither swallowed nor altered.

Main results:

- Definition `Input.items`: the items of some bytes.
- Theorem `Input.items_standsFor`: the item of a slice, and then those of the bytes behind it.
- Theorem `Input.items_append`: the items of two parts where no sequence goes over the boundary.
- Theorem `Input.items_overrun`: the items are others where one does.
- Theorem `Input.decoding_resynchronizes`: where the items of two parts are the items of the whole.
-/

namespace LetCalc

namespace Utf8

/-- A byte goes on with a sequence exactly if its two highest bits are `10`. -/
theorem isContinuation_eq_false_iff {b : UInt8} : isContinuation b = false ↔ b &&& 0xc0 ≠ 0x80 := by
  have hall : ∀ k < 256,
      isContinuation (UInt8.ofNat k) = false ↔ UInt8.ofNat k &&& 0xc0 ≠ 0x80 := by
    decide +kernel
  have hbyte := hall b.toNat b.toNat_lt
  rwa [UInt8.ofNat_toNat] at hbyte

/-- Nothing is taken away from bytes exactly if no end of them is an incomplete sequence. -/
theorem trimmed_eq_self_iff {bytes : List UInt8} :
    trimmed bytes = bytes ↔ ∀ tail, tail <:+ bytes → isIncomplete tail = false := by
  constructor
  · intro hsame tail htail
    obtain ⟨front, rfl⟩ := htail
    rw [Bool.eq_false_iff]
    intro hincomplete
    rw [trimmed_append hincomplete] at hsame
    obtain rfl : tail = [] := List.self_eq_append_right.1 hsame
    cases hincomplete
  · exact trimmed_of_complete

end Utf8

namespace Input

/-! ## Items by their slices -/

/-- The items of some bytes, without the end. -/
def items (bytes : List UInt8) : List Item := ((ofBytes bytes).answers 1).filterMap id

theorem Split.items_eq {bytes : List UInt8} {slices : List (Glyph × List UInt8)}
    (h : Split bytes slices) : items bytes = slices.map fun s => .glyph s.1 := by
  rw [items, h.answers_eq, List.filterMap_append, List.filterMap_map, ← List.filterMap_eq_map]
  exact List.append_nil _

theorem items_nil : items [] = [] := Split.nil.items_eq

/-- The answers up to the end are the items, and then the end. -/
theorem answers_eq_items (bytes : List UInt8) :
    (ofBytes bytes).answers 1 = (items bytes).map some ++ [none] := by
  obtain ⟨slices, hsplit⟩ := exists_split bytes
  rw [hsplit.answers_eq, hsplit.items_eq, List.map_map]
  rfl

/-- The item of a slice is followed by the items of the bytes behind it. -/
theorem items_standsFor {g : Glyph} {slice following : List UInt8}
    (h : g.StandsFor slice following) :
    items (slice ++ following) = .glyph g :: items following := by
  obtain ⟨slices, hsplit⟩ := exists_split following
  rw [(Split.cons h hsplit).items_eq, hsplit.items_eq]
  rfl

/-! ## Boundaries that no sequence goes over -/

/-- Only a sequence that lacks bytes depends on what stands behind its slice. -/
theorem standsFor_append_of_complete {g : Glyph} {slice following : List UInt8}
    (h : g.StandsFor slice following) (hslice : following = [] → Utf8.isIncomplete slice = false)
    (bytes : List UInt8) : g.StandsFor slice (following ++ bytes) := by
  rcases g with c | b | b | -
  · exact h
  · exact h
  · obtain ⟨more, n, rfl, hmore, hrequires, hlt, hnext⟩ := h
    refine ⟨more, n, rfl, hmore, hrequires, hlt, ?_⟩
    cases following with
    | cons b' following => exact hnext
    | nil =>
      have hincomplete : Utf8.isIncomplete (b :: more) = true :=
        Utf8.isIncomplete_iff.2 ⟨b, more, n, rfl, hrequires, hlt, hmore⟩
      rw [hslice rfl] at hincomplete
      cases hincomplete
  · exact h

/-- Bytes without an incomplete sequence at their end fall into the same slices, whatever stands
behind them. -/
theorem Split.append_of_trimmed {bytes bytes' : List UInt8}
    {slices slices' : List (Glyph × List UInt8)} (h : Split bytes slices)
    (h' : Split bytes' slices') (hbytes : Utf8.trimmed bytes = bytes) :
    Split (bytes ++ bytes') (slices ++ slices') := by
  rw [Utf8.trimmed_eq_self_iff] at hbytes
  induction h with
  | nil => exact h'
  | @cons g slice following slices front rest ih =>
    have hslice : following = [] → Utf8.isIncomplete slice = false := by
      rintro rfl
      exact hbytes slice (by simp)
    have hrest := ih fun tail htail =>
      hbytes tail (htail.trans (List.suffix_append slice following))
    rw [List.append_assoc]
    exact .cons (standsFor_append_of_complete front hslice bytes') hrest

/-- The items of two parts are the items of the whole if the second part does not start with a byte
that goes on with a sequence, or no sequence lacks bytes at the end of the first part. -/
theorem items_append {p q : List UInt8}
    (h : (∀ b ∈ q.head?, Utf8.isContinuation b = false) ∨ Utf8.trimmed p = p) :
    items (p ++ q) = items p ++ items q := by
  obtain ⟨slices, hp⟩ := exists_split p
  obtain ⟨slices', hq⟩ := exists_split q
  have hsplit : Split (p ++ q) (slices ++ slices') := by
    rcases h with hstart | hend
    · exact hp.append hq hstart
    · exact hp.append_of_trimmed hq hend
  rw [hsplit.items_eq, hp.items_eq, hq.items_eq, List.map_append]

/-! ## Sequences that go over a boundary -/

/-- A byte that goes on with a sequence is an item of its own where no sequence is in front. -/
theorem items_of_isContinuation {b : UInt8} (h : Utf8.isContinuation b = true)
    (bytes : List UInt8) :
    items (b :: bytes) = .glyph (.malformed (.badStart b)) :: items bytes := by
  have hfront : (Glyph.malformed (.badStart b)).StandsFor [b] bytes := by
    refine ⟨rfl, ?_⟩
    intro n hrequires
    rw [hrequires.isContinuation_eq_false] at h
    cases h
  exact items_standsFor hfront

/-- Bytes whose first item is a bad start begin with the byte that it names. -/
theorem head?_of_items {bytes : List UInt8} {b : UInt8} {more : List Item}
    (h : items bytes = .glyph (.malformed (.badStart b)) :: more) : bytes.head? = some b := by
  cases bytes with
  | nil =>
    rw [items_nil] at h
    cases h
  | cons first rest =>
    obtain ⟨g, slice, following, hbytes, hfront⟩ := exists_standsFor first rest
    rw [hbytes, items_standsFor hfront] at h
    cases h
    rw [hbytes, hfront.1]
    rfl

/-- Where a sequence goes over the boundary, the items of the parts are not those of the whole. -/
theorem items_overrun {p : List UInt8} (hp : Utf8.trimmed p ≠ p) {b : UInt8}
    (hb : Utf8.isContinuation b = true) (q : List UInt8) :
    items (p ++ b :: q) ≠ items p ++ items (b :: q) := by
  rw [Ne, Utf8.trimmed_eq_self_iff, Classical.not_forall] at hp
  obtain ⟨tail, hp⟩ := hp
  rw [Classical.not_imp, Bool.not_eq_false, Utf8.isIncomplete_iff] at hp
  obtain ⟨⟨front, rfl⟩, first, more, n, rfl, hrequires, hlt, hmore⟩ := hp
  -- What is in front of the incomplete sequence is the same on both sides.
  have hstart : ∀ bytes, items (front ++ first :: bytes) = items front ++ items (first :: bytes) :=
    fun bytes => items_append (Or.inl (by simpa using hrequires.isContinuation_eq_false))
  have halone : (Glyph.malformed (.truncated first)).StandsFor (first :: more) [] :=
    ⟨more, n, rfl, hmore, hrequires, hlt, by simp⟩
  have hsequence := items_standsFor halone
  rw [List.append_nil, items_nil] at hsequence
  obtain ⟨g, slice, following, hbytes, hfront⟩ := exists_standsFor first (more ++ b :: q)
  rw [List.append_assoc, List.cons_append, hstart, hstart, List.append_assoc, hsequence, hbytes,
    items_standsFor hfront, items_of_isContinuation hb]
  intro hsame
  obtain ⟨hg, hfollowing⟩ := List.cons.inj (List.append_cancel_left hsame)
  -- A sequence that still lacks bytes is not followed by one that goes on with it.
  cases hg
  obtain ⟨-, -, -, -, -, -, hnext⟩ := hfront
  rw [hnext b (head?_of_items hfollowing)] at hb
  cases hb

/-! ## Resynchronization -/

/-- Decoding resynchronizes.  The answers for any bytes are their items and then the end.  The items
of two parts are those of the whole if the second part is empty or starts with a byte that does not
have the form `10xxxxxx`, whatever the first part is; and otherwise exactly if no sequence lacks
bytes at the end of the first part.  So a character is decoded as itself behind any bytes, and the
items in front of it and behind it are as they are without it. -/
theorem decoding_resynchronizes (p q : List UInt8) :
    (∀ bytes, (ofBytes bytes).answers 1 = (items bytes).map some ++ [none]) ∧
      (items (p ++ q) = items p ++ items q ↔
        (∀ b ∈ q.head?, b &&& 0xc0 ≠ 0x80) ∨ Utf8.trimmed p = p) ∧
      ∀ c : Char, items (p ++ (String.utf8EncodeChar c ++ q))
        = items p ++ .glyph (.char c) :: items q := by
  simp only [← Utf8.isContinuation_eq_false_iff]
  refine ⟨answers_eq_items, ⟨?_, items_append⟩, ?_⟩
  · intro hsame
    rw [Classical.or_iff_not_imp_right]
    intro hend b hb
    obtain ⟨rest, rfl⟩ := List.head?_eq_some_iff.1 hb
    rw [Bool.eq_false_iff]
    exact fun hcontinues => items_overrun hend hcontinues rest hsame
  · intro c
    have hchar : (Glyph.char c).StandsFor (String.utf8EncodeChar c) q := rfl
    obtain ⟨first, more, hencode, hlength, -⟩ := Utf8.encode_spec c
    have hstart : ∀ b ∈ (String.utf8EncodeChar c ++ q).head?, Utf8.isContinuation b = false := by
      rw [hencode]
      simpa using (Utf8.requires_iff.2 hlength).isContinuation_eq_false
    rw [items_append (Or.inl hstart), items_standsFor hchar]

end Input

end LetCalc
