import LetCalc.Proofs.Input.Slices

/-!
# What a stream delivers

A source is read up to the first read that fails or finds the end.  What the reads before it
deliver is all that counts: the text is that of these bytes, and where a failure strikes inside a
sequence of bytes, that of the bytes in front of this sequence.  No read behind it is looked at.

Main results:

- Definition `Read.delivery`: the bytes before the first failure or end, and the reads behind it.
- Definition `Utf8.trimmed`: bytes without an incomplete sequence at their end.
- Definition `Delivery.counted`: the bytes that count.
- Theorem `Input.Split.textFrom_append`: bytes are decoded as their glyphs, whatever is behind them.
- Theorem `Input.text_ofReads`: the text of a stream.
- Theorem `Input.next_cases`: an item takes bytes only, up to the first failure or end.
-/

namespace LetCalc

/-! ## The first failure or end -/

/-- What some reads come to: the bytes in front of the first failure or end, the reason if it is a
failure, and the reads behind it. -/
structure Delivery where
  bytes : List UInt8
  failure : Option String
  unread : List Read
deriving DecidableEq, Repr

/-- What some reads deliver up to the first failure or end; the end of the list is an end too. -/
def Read.delivery : List Read → Delivery
  | [] => ⟨[], none, []⟩
  | .data bytes :: rest => { delivery rest with bytes := bytes ++ (delivery rest).bytes }
  | .interrupted :: rest => delivery rest
  | .failed reason :: rest => ⟨[], some reason, rest⟩
  | .ended :: rest => ⟨[], none, rest⟩

namespace Input

/-- The events behind the first failure or end. -/
def unread : Input → Input
  | [] => []
  | .byte _ :: rest => unread rest
  | .failed _ :: rest => rest
  | .ended :: rest => rest

theorem unread_ofBytes_append (bytes : List UInt8) (rest : Input) :
    unread (ofBytes bytes ++ rest) = unread rest := by
  induction bytes with
  | nil => rfl
  | cons b bytes ih => exact ih

/-- The events of some reads are the bytes that they deliver, and then a failure or an end. -/
theorem ofReads_eq (reads : List Read) :
    ∃ rest, ofReads reads = ofBytes (Read.delivery reads).bytes ++ rest ∧
      rest.unread = ofReads (Read.delivery reads).unread ∧
      (match (Read.delivery reads).failure with
        | some reason => rest.head? = some (.failed reason)
        | none => rest = [] ∨ rest.head? = some .ended) := by
  induction reads with
  | nil => exact ⟨[], rfl, rfl, Or.inl rfl⟩
  | cons read reads ih =>
    cases read with
    | data bytes =>
      rcases ih with ⟨rest, hreads, hunread, hstop⟩
      refine ⟨rest, ?_, hunread, hstop⟩
      rw [ofReads_data, hreads, ← List.append_assoc, ← ofBytes_append]
      rfl
    | interrupted => exact ih
    | failed reason => exact ⟨.failed reason :: ofReads reads, rfl, rfl, rfl⟩
    | ended => exact ⟨.ended :: ofReads reads, rfl, rfl, Or.inr rfl⟩

/-- The events behind the first failure or end are those of the reads behind it. -/
theorem unread_ofReads (reads : List Read) :
    (ofReads reads).unread = ofReads (Read.delivery reads).unread := by
  rcases ofReads_eq reads with ⟨rest, hreads, hunread, -⟩
  rw [hreads, unread_ofBytes_append, hunread]

end Input

/-! ## Incomplete sequences -/

namespace Utf8

/-- Whether the bytes are the front of a sequence that lacks some of the bytes it requires. -/
def isIncomplete : List UInt8 → Bool
  | [] => false
  | first :: more =>
    match length? first with
    | some n => more.length + 1 < n && more.all isContinuation
    | none => false

/-- The bytes without an incomplete sequence at their end. -/
def trimmed : List UInt8 → List UInt8
  | [] => []
  | b :: rest => if isIncomplete (b :: rest) then [] else b :: trimmed rest

theorem isIncomplete_iff {bytes : List UInt8} :
    isIncomplete bytes = true ↔ ∃ first more n, bytes = first :: more ∧ Requires first n ∧
      more.length + 1 < n ∧ ∀ b ∈ more, isContinuation b = true := by
  cases bytes with
  | nil => simp [isIncomplete]
  | cons first more =>
    cases hlength : length? first with
    | none => simp [isIncomplete, hlength, requires_iff]
    | some n =>
      simp only [isIncomplete, hlength, requires_iff, Bool.and_eq_true, decide_eq_true_eq,
        List.all_eq_true]
      constructor
      · rintro ⟨hlt, hmore⟩
        exact ⟨first, more, n, rfl, hlength, hlt, hmore⟩
      · rintro ⟨first', more', n', hbytes, hlength', hlt, hmore⟩
        cases hbytes
        cases hlength.symm.trans hlength'
        exact ⟨hlt, hmore⟩

/-- A first byte continues nothing. -/
theorem Requires.isContinuation_eq_false {b : UInt8} {n : Nat} (h : Requires b n) :
    isContinuation b = false := by
  rw [requires_iff] at h
  rw [Bool.eq_false_iff, Ne, isContinuation_iff]
  rcases first_of_length? h with h | h | h | h <;> omega

/-- At most one end of some bytes is an incomplete sequence, so taking it away leaves what is in
front of it. -/
theorem trimmed_append {front tail : List UInt8} (h : isIncomplete tail = true) :
    trimmed (front ++ tail) = front := by
  rcases isIncomplete_iff.1 h with ⟨first, more, n, rfl, hrequires, -, -⟩
  induction front with
  | nil => simp [trimmed, h]
  | cons b front ih =>
    have hnot : isIncomplete (b :: (front ++ first :: more)) = false := by
      -- The first byte of the incomplete sequence continues no other one.
      rw [Bool.eq_false_iff, Ne, isIncomplete_iff]
      rintro ⟨b', more', n', hbytes, -, -, hmore⟩
      cases hbytes
      have hfirst := hmore first (by simp)
      rw [hrequires.isContinuation_eq_false] at hfirst
      cases hfirst
    rw [List.cons_append, trimmed, hnot, if_neg Bool.false_ne_true, ih]

example : trimmed [0x61, 0xe2, 0x82] = [0x61] := by decide

/-- Bytes of which no end is an incomplete sequence stay as they are. -/
theorem trimmed_of_complete {bytes : List UInt8}
    (h : ∀ tail, tail <:+ bytes → isIncomplete tail = false) : trimmed bytes = bytes := by
  induction bytes with
  | nil => rfl
  | cons b rest ih =>
    rw [trimmed, h _ (List.suffix_refl _), if_neg Bool.false_ne_true,
      ih fun tail htail => h tail (htail.trans (List.suffix_cons b rest))]

end Utf8

/-- What counts of a delivery: all bytes, but without an incomplete sequence at their end where a
failure strikes. -/
def Delivery.counted (delivery : Delivery) : List UInt8 :=
  match delivery.failure with
  | some _ => Utf8.trimmed delivery.bytes
  | none => delivery.bytes

/-! ## Decoding up to the first failure or end -/

namespace Input

theorem textFrom_failed {input rest : Input} {reason : String} (glyphs : Array Glyph)
    (h : next input = (some (.failed reason), rest)) :
    textFrom glyphs input = ⟨glyphs.toList, some reason⟩ := by
  rw [textFrom]
  split <;> simp_all

theorem textFrom_end {input rest : Input} (glyphs : Array Glyph) (h : next input = (none, rest)) :
    textFrom glyphs input = ⟨glyphs.toList, none⟩ := by
  rw [textFrom]
  split <;> simp_all

/-- Glyphs already decoded make no difference to those that come behind them. -/
theorem textFrom_acc (front glyphs : Array Glyph) (input : Input) :
    textFrom (front ++ glyphs) input
      = ⟨front.toList ++ (textFrom glyphs input).glyphs, (textFrom glyphs input).failure⟩ := by
  fun_induction textFrom glyphs input with
  | case1 glyphs input g rest h ih => rw [textFrom_glyph _ h, ← Array.append_push, ih]
  | case2 glyphs input reason rest h => rw [textFrom_failed _ h, Array.toList_append]
  | case3 glyphs input rest h => rw [textFrom_end _ h, Array.toList_append]

/-- A glyph that is the next item stands in front of the text of the rest. -/
theorem text_of_next {input rest : Input} {g : Glyph} (h : next input = (some (.glyph g), rest)) :
    input.text = ⟨g :: rest.text.glyphs, rest.text.failure⟩ := by
  rw [text, textFrom_glyph _ h]
  exact textFrom_acc #[g] #[] rest

/-- Bytes are decoded as their glyphs whatever is behind them, unless it goes on with the last
sequence. -/
theorem Split.textFrom_append {bytes : List UInt8} {slices : List (Glyph × List UInt8)}
    {rest : Input} (h : Split bytes slices)
    (hbyte : ∀ b, rest.head? = some (.byte b) → Utf8.isContinuation b = false)
    (hfailed : ∀ reason, rest.head? = some (.failed reason) →
      ∀ tail, tail <:+ bytes → Utf8.isIncomplete tail = false) (glyphs : Array Glyph) :
    textFrom glyphs (ofBytes bytes ++ rest) = textFrom (glyphs ++ slices.map Prod.fst) rest := by
  induction h generalizing glyphs with
  | nil => simp [ofBytes]
  | @cons g slice following slices front _ ih =>
    have hnext : next (ofBytes (slice ++ following) ++ rest)
        = (some (.glyph g), ofBytes following ++ rest) := by
      apply next_of_standsFor_append front hbyte
      rintro rfl b reason rfl hhead
      rcases front with ⟨more, n, rfl, hmore, hrequires, hlt, -⟩
      have hcomplete := hfailed reason hhead (b :: more) (by simp)
      rw [Bool.eq_false_iff, Ne, Utf8.isIncomplete_iff] at hcomplete
      exact hcomplete ⟨b, more, n, rfl, hrequires, hlt, hmore⟩
    have hrest := ih fun reason hhead tail htail =>
      hfailed reason hhead tail (htail.trans (List.suffix_append slice following))
    rw [textFrom_glyph glyphs hnext, hrest]
    simp

/-- A failure in place of the bytes that a sequence lacks is the next item. -/
theorem next_of_isIncomplete {bytes : List UInt8} (h : Utf8.isIncomplete bytes = true)
    (reason : String) (rest : Input) :
    next (ofBytes bytes ++ .failed reason :: rest) = (some (.failed reason), rest) := by
  rcases Utf8.isIncomplete_iff.1 h with ⟨first, more, n, rfl, hrequires, hlt, hmore⟩
  rcases Nat.exists_eq_add_one_of_ne_zero (Nat.ne_zero_of_lt hlt) with ⟨less, rfl⟩
  have htake : takeContinuation less (ofBytes more ++ .failed reason :: rest)
      = (more, .failed reason :: rest) :=
    takeContinuation_ofBytes hmore (Nat.le_of_lt (Nat.lt_of_succ_lt_succ hlt)) (Or.inr (by simp))
  have hshort : more.length ≠ less := Nat.ne_of_lt (Nat.lt_of_succ_lt_succ hlt)
  rw [ofBytes_cons, List.cons_append, next, Utf8.requires_iff.1 hrequires]
  simp [decodeFrom, htake, hshort]

/-- Bytes in front of an end are read as if there were nothing else. -/
theorem text_ofBytes_ended (bytes : List UInt8) {rest : Input}
    (h : rest = [] ∨ rest.head? = some .ended) :
    (ofBytes bytes ++ rest).text = (ofBytes bytes).text := by
  rcases exists_split bytes with ⟨slices, hsplit⟩
  have hend : ∃ after, next rest = (none, after) := by
    rcases h with rfl | hhead
    · exact ⟨[], rfl⟩
    · rcases List.head?_eq_some_iff.1 hhead with ⟨after, rfl⟩
      exact ⟨after, rfl⟩
  rcases hend with ⟨after, hafter⟩
  have hbyte : ∀ b, rest.head? = some (.byte b) → Utf8.isContinuation b = false := by
    rcases h with rfl | hhead <;> simp_all
  have hfailed : ∀ reason, rest.head? = some (.failed reason) →
      ∀ tail, tail <:+ bytes → Utf8.isIncomplete tail = false := by
    rcases h with rfl | hhead <;> simp_all
  rw [text, hsplit.textFrom_append hbyte hfailed, textFrom_end _ hafter, hsplit.text_eq]
  simp

/-- Bytes in front of a failure are read without an incomplete sequence at their end, and the
failure cuts off the rest. -/
theorem text_ofBytes_failed (bytes : List UInt8) (reason : String) (rest : Input) :
    (ofBytes bytes ++ .failed reason :: rest).text
      = ⟨(ofBytes (Utf8.trimmed bytes)).text.glyphs, some reason⟩ := by
  by_cases hincomplete : ∃ tail, tail <:+ bytes ∧ Utf8.isIncomplete tail = true
  · rcases hincomplete with ⟨tail, ⟨front, rfl⟩, htail⟩
    rcases exists_split front with ⟨slices, hsplit⟩
    have hnext := next_of_isIncomplete htail reason rest
    have htrimmed : Utf8.trimmed (front ++ tail) = front := Utf8.trimmed_append htail
    -- The incomplete sequence starts with a byte, which continues nothing in front of it.
    rcases Utf8.isIncomplete_iff.1 htail with ⟨first, more, n, rfl, hrequires, -, -⟩
    rw [htrimmed, hsplit.text_eq, ofBytes_append, List.append_assoc, text,
      hsplit.textFrom_append, textFrom_failed _ hnext]
    · simp
    · intro b hhead
      cases hhead
      exact hrequires.isContinuation_eq_false
    · intro reason hhead
      cases hhead
  · have hcomplete : ∀ tail, tail <:+ bytes → Utf8.isIncomplete tail = false := by
      intro tail htail
      rw [Bool.eq_false_iff]
      exact fun hmem => hincomplete ⟨tail, htail, hmem⟩
    rcases exists_split bytes with ⟨slices, hsplit⟩
    have hnext : next (.failed reason :: rest) = (some (.failed reason), rest) := rfl
    rw [text, hsplit.textFrom_append (by simp) (fun _ _ => hcomplete), textFrom_failed _ hnext,
      Utf8.trimmed_of_complete hcomplete, hsplit.text_eq]
    simp

/-- The text of a stream is that of the bytes that count, which a failure may cut off. -/
theorem text_ofReads (reads : List Read) :
    (ofReads reads).text
      = ⟨(ofBytes (Read.delivery reads).counted).text.glyphs, (Read.delivery reads).failure⟩ := by
  rcases ofReads_eq reads with ⟨rest, hreads, -, hstop⟩
  rw [hreads, Delivery.counted]
  cases hfailure : (Read.delivery reads).failure with
  | some reason =>
    rw [hfailure] at hstop
    rcases List.head?_eq_some_iff.1 hstop with ⟨after, rfl⟩
    exact text_ofBytes_failed _ reason after
  | none =>
    rw [hfailure] at hstop
    rw [text_ofBytes_ended _ hstop]
    exact congrArg (Text.mk _) (failure_text_ofBytes _)

/-! ## What an item takes -/

theorem unread_takeContinuation (n : Nat) (input : Input) :
    unread (takeContinuation n input).2 = unread input := by
  have hinput := congrArg unread (takeContinuation_append n input)
  exact (unread_ofBytes_append _ _).symm.trans hinput

/-- Decoding takes bytes, and it goes past the first failure or end only to report it. -/
theorem next_cases (input : Input) :
    (∃ g rest, next input = (some (.glyph g), rest) ∧ rest.unread = input.unread) ∨
      (∃ reason, next input = (some (.failed reason), input.unread)) ∨
      next input = (none, input.unread) := by
  rcases input with - | ⟨b | reason | -, rest⟩
  · exact Or.inr (Or.inr rfl)
  · rw [next]
    split
    · next n hlength =>
      have hunread := unread_takeContinuation n rest
      simp only [decodeFrom]
      split
      · split
        · exact Or.inl ⟨_, _, rfl, hunread⟩
        · exact Or.inl ⟨_, _, rfl, hunread⟩
      · split
        · next reason rest' heq =>
          rw [heq] at hunread
          exact Or.inr (Or.inl ⟨reason, congrArg _ hunread⟩)
        · exact Or.inl ⟨_, _, rfl, hunread⟩
    · exact Or.inl ⟨_, _, rfl, rfl⟩
  · exact Or.inr (Or.inl ⟨reason, rfl⟩)
  · exact Or.inr (Or.inr rfl)

theorem length_unread_le (input : Input) : input.unread.length ≤ input.length := by
  induction input with
  | nil => exact Nat.le_refl 0
  | cons event rest ih =>
    cases event with
    | byte b => exact Nat.le_succ_of_le ih
    | failed reason => exact Nat.le_succ _
    | ended => exact Nat.le_succ _

/-- An end leaves no more of the input than there was. -/
theorem length_next_le {input rest : Input} (h : next input = (none, rest)) :
    rest.length ≤ input.length := by
  rcases next_cases input with ⟨g, rest', hnext, -⟩ | ⟨reason, hnext⟩ | hnext
  · rw [hnext] at h
    cases h
  · rw [hnext] at h
    cases h
  · rw [hnext] at h
    cases h
    exact length_unread_le input

end Input

end LetCalc
