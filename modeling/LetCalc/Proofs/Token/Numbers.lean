import LetCalc.Proofs.Token.Places

/-!
# Numbers

A number in a source may have any number of digits.  Its token carries what is left of it modulo the
size of words, and it is reported exactly if it does not fit.  The scanner reads it digit by digit
in a word that wraps, so once the number has outgrown the word, later digits may look harmless; that
it has is remembered.

Main results:

- Definition `DigitRun.StandsIn`: a run of digits that is a number of a text.
- Theorem `Piece.mem_digitRuns_iff`: the runs of a text, one after the other, are exactly these.
- Theorem `Piece.journal_digitRuns`: the numbers among the tokens of a text, and those reported.
- Theorem `Context.lex_numbers_exact`: what is handed out and reported for the numbers of a source.
-/

namespace LetCalc

/-! ## Runs of digits -/

/-- Digits in a text, with the index of the item that is the first of them. -/
structure DigitRun where
  first : Nat
  digits : List Char
deriving DecidableEq, Repr

namespace DigitRun

/-- The number that the digits spell. -/
def number (run : DigitRun) : Nat := Numeral.decimal run.digits

/-- From the place of the first digit to the place of the last. -/
def span (glyphs : List Glyph) (run : DigitRun) : Span :=
  ⟨placeOf glyphs run.first, placeOf glyphs (run.first + run.digits.length - 1)⟩

/-- The report of a number that does not fit: it quotes the digits, at their place. -/
def finding (glyphs : List Glyph) (run : DigitRun) : Finding :=
  ⟨run.span glyphs, .overflow (.ofList run.digits)⟩

/-- The run is a number of the text: one or more digits, no digit behind them, and they start where
a piece of the text starts, so that they are not in the middle of a number, a word or a comment. -/
structure StandsIn (glyphs : List Glyph) (run : DigitRun) : Prop where
  ne_nil : run.digits ≠ []
  isDigit : ∀ c ∈ run.digits, c.isDigit = true
  whole : ∃ rest, glyphs.drop run.first = run.digits.map .char ++ rest ∧
    ∀ g ∈ rest.head?, g.isDigit = false
  start : ∃ before after, pieces glyphs = before ++ after ∧
    run.first = (before.flatMap Piece.glyphs).length

end DigitRun

namespace Piece

/-- The runs of digits among pieces that start with item `i`. -/
def digitRuns (i : Nat) : List Piece → List DigitRun
  | [] => []
  | piece :: rest =>
    (if piece.glyphs.head?.any Glyph.isDigit then [⟨i, Glyph.chars piece.glyphs⟩] else [])
      ++ digitRuns (i + piece.glyphs.length) rest

theorem digitRuns_append (i : Nat) (xs ys : List Piece) :
    digitRuns i (xs ++ ys)
      = digitRuns i xs ++ digitRuns (i + (xs.flatMap glyphs).length) ys := by
  induction xs generalizing i with
  | nil => rfl
  | cons piece xs ih =>
    rw [List.cons_append, digitRuns, digitRuns, ih, List.flatMap_cons, List.length_append,
      List.append_assoc, Nat.add_assoc]

/-- A run of digits is what its piece consists of. -/
theorem exists_of_mem_digitRuns {i : Nat} {ps : List Piece} {r : DigitRun}
    (h : r ∈ digitRuns i ps) :
    ∃ before piece after, ps = before ++ piece :: after ∧
      piece.glyphs.head?.any Glyph.isDigit = true ∧
      r = ⟨i + (before.flatMap glyphs).length, Glyph.chars piece.glyphs⟩ := by
  induction ps generalizing i with
  | nil => cases h
  | cons piece ps ih =>
    rw [digitRuns, List.mem_append] at h
    rcases h with h | h
    · by_cases hdigit : piece.glyphs.head?.any Glyph.isDigit = true
      · rw [if_pos hdigit, List.mem_singleton] at h
        exact ⟨[], piece, ps, rfl, hdigit, h⟩
      · rw [if_neg hdigit] at h
        cases h
    · obtain ⟨before, piece', after, rfl, hdigit, rfl⟩ := ih h
      refine ⟨piece :: before, piece', after, rfl, hdigit, ?_⟩
      rw [List.flatMap_cons, List.length_append, Nat.add_assoc]

/-- Runs of digits stand one behind the other. -/
theorem digitRuns_pairwise (i : Nat) (ps : List Piece) :
    (∀ r ∈ digitRuns i ps, i ≤ r.first) ∧
      (digitRuns i ps).Pairwise fun r r' => r.first + r.digits.length ≤ r'.first := by
  induction ps generalizing i with
  | nil => exact ⟨by simp [digitRuns], List.Pairwise.nil⟩
  | cons piece ps ih =>
    obtain ⟨hbehind, hpairwise⟩ := ih (i + piece.glyphs.length)
    have hlength : (Glyph.chars piece.glyphs).length ≤ piece.glyphs.length :=
      List.length_filterMap_le _ _
    by_cases hdigit : piece.glyphs.head?.any Glyph.isDigit = true
    · rw [digitRuns, if_pos hdigit, List.singleton_append]
      constructor
      · intro r hr
        rcases List.mem_cons.1 hr with rfl | hr
        · exact Nat.le_refl i
        · exact Nat.le_of_add_right_le (hbehind r hr)
      · refine List.pairwise_cons.2 ⟨?_, hpairwise⟩
        intro r hr
        have hr' := hbehind r hr
        simp only
        omega
    · rw [digitRuns, if_neg hdigit, List.nil_append]
      exact ⟨fun r hr => Nat.le_of_add_right_le (hbehind r hr), hpairwise⟩

/-- Digits in front of a text that does not start with one are its first piece. -/
theorem pieces_of_digits {ds : List Char} (hne : ds ≠ []) (hdigits : ∀ c ∈ ds, c.isDigit = true)
    {rest : List Glyph} (hrest : ∀ g ∈ rest.head?, g.isDigit = false) :
    pieces (ds.map .char ++ rest) = number (ds.map .char) :: pieces rest := by
  obtain ⟨c, cs, rfl⟩ := List.exists_cons_of_ne_nil hne
  have hstop : rest.takeWhile Glyph.isDigit = [] := by
    cases rest with
    | nil => rfl
    | cons g rest => exact List.takeWhile_cons_of_neg (Bool.eq_false_iff.1 (hrest g rfl))
  have hrun : (cs.map Glyph.char ++ rest).takeWhile Glyph.isDigit = cs.map .char := by
    rw [List.takeWhile_append_of_pos, hstop, List.append_nil]
    intro g hg
    obtain ⟨c', hc', rfl⟩ := List.mem_map.1 hg
    exact hdigits c' (List.mem_cons_of_mem _ hc')
  have hfirst : (Glyph.char c).isDigit = true := hdigits c (List.mem_cons_self ..)
  rw [List.map_cons, List.cons_append, pieces, front_digit hfirst, hrun]
  simp [number]

/-- A first piece that starts with a digit consists of digits, and no digit is behind it. -/
theorem digits_of_front {g : Glyph} (h : g.isDigit = true) (rest : List Glyph) :
    ∃ ds after, ds ≠ [] ∧ (∀ c ∈ ds, c.isDigit = true) ∧ front g rest = number (ds.map .char) ∧
      g :: rest = ds.map .char ++ after ∧ ∀ g' ∈ after.head?, g'.isDigit = false := by
  have hall : ∀ g' ∈ g :: rest.takeWhile Glyph.isDigit, g'.isDigit = true := by
    intro g' hg'
    rcases List.mem_cons.1 hg' with rfl | hg'
    · exact h
    · exact List.mem_takeWhile_imp hg'
  have hchars := eq_map_chars (fun _ => rfl) hall
  refine ⟨Glyph.chars (g :: rest.takeWhile Glyph.isDigit), rest.dropWhile Glyph.isDigit, ?_, ?_, ?_,
    ?_, fun g' hg' => head?_dropWhile_eq_false hg'⟩
  · intro hnil
    rw [hnil] at hchars
    cases hchars
  · intro c hc
    exact hall (.char c) (hchars ▸ List.mem_map_of_mem hc)
  · rw [front_digit h, ← hchars]
  · rw [← hchars, List.cons_append, List.takeWhile_append_dropWhile]

theorem chars_map_char (ds : List Char) : Glyph.chars (ds.map .char) = ds :=
  List.filterMap_map.trans List.filterMap_some

/-- A number is a run of digits, in front of those behind it. -/
theorem digitRuns_number (i : Nat) {ds : List Char} (hne : ds ≠ [])
    (hdigits : ∀ c ∈ ds, c.isDigit = true) (ps : List Piece) :
    digitRuns i (number (ds.map .char) :: ps) = ⟨i, ds⟩ :: digitRuns (i + ds.length) ps := by
  have hhead : (number (ds.map .char)).glyphs.head?.any Glyph.isDigit = true := by
    obtain ⟨c, cs, rfl⟩ := List.exists_cons_of_ne_nil hne
    exact hdigits c (List.mem_cons_self ..)
  rw [digitRuns, if_pos hhead]
  simp [number, chars_map_char]

/-- The runs of digits of a text are its numbers. -/
theorem mem_digitRuns_iff {text : List Glyph} {r : DigitRun} :
    r ∈ digitRuns 0 (pieces text) ↔ r.StandsIn text := by
  constructor
  · intro hr
    obtain ⟨before, piece, after, hpieces, hdigit, rfl⟩ := exists_of_mem_digitRuns hr
    obtain ⟨hdrop, hafter⟩ := pieces_of_append hpieces
    generalize (piece :: after).flatMap glyphs = items at hdrop hafter
    cases items with
    | nil =>
      rw [pieces] at hafter
      cases hafter
    | cons g rest =>
      rw [pieces, List.cons.injEq] at hafter
      obtain ⟨rfl, -⟩ := hafter
      obtain ⟨more, -, -, -, -, hglyphs, -⟩ := taken_front .start rest g
      have hg : g.isDigit = true := by simpa [hglyphs] using hdigit
      obtain ⟨ds, behind, hne, hdigits, hfront, hsplit, hbehind⟩ := digits_of_front hg rest
      rw [hfront, Nat.zero_add]
      simp only [number, chars_map_char]
      exact ⟨hne, hdigits, ⟨behind, hdrop.trans hsplit, hbehind⟩, before, _, hpieces, rfl⟩
  · rintro ⟨hne, hdigits, ⟨rest, hwhole, hrest⟩, before, after, hpieces, hfirst⟩
    obtain ⟨hdrop, hafter⟩ := pieces_of_append hpieces
    rw [← hfirst, hwhole] at hdrop
    rw [← hdrop, pieces_of_digits hne hdigits hrest] at hafter
    rw [hpieces, digitRuns_append, Nat.zero_add, ← hfirst, hafter, digitRuns_number _ hne hdigits]
    exact List.mem_append_right _ (List.mem_cons_self ..)

/-- Digits in a word or in a comment are no number. -/
example : digitRuns 0 (pieces ("x1 /*2*/ 003".toList.map .char)) = [⟨9, ['0', '0', '3']⟩] := by
  decide +kernel

end Piece

/-! ## Tokens and reports of numbers -/

/-- The number that a token carries, and its place. -/
def Token.number? (token : Token String) : Option (Nat × Span) :=
  match token.kind with
  | .int v => some (v.toNat, token.span)
  | _ => none

/-- Whether the problem is a number that does not fit. -/
def Problem.isOverflow : Problem → Bool
  | .overflow _ => true
  | _ => false

namespace Piece

/-- The token of a number carries the number modulo the size of words, and the number is reported
exactly if it does not fit, both at the place of the digits. -/
theorem records_number {text rest : List Glyph} {i : Nat} {ds : List Char} (hne : ds ≠ [])
    (h : text.drop i = ds.map .char ++ rest) :
    let r : DigitRun := ⟨i, ds⟩
    let j := (number (ds.map .char)).records (placeOf text i)
    j.tokens.filterMap Token.number? = [(r.number % UInt64.size, r.span text)] ∧
      j.findings.filter (·.problem.isOverflow)
        = if UInt64.size ≤ r.number then [r.finding text] else [] := by
  intro r j
  have hover : Span.over (placeOf text i) (ds.map .char) = r.span text := by
    rw [over_placeOf (by simpa using hne) h, List.length_map]
    rfl
  have hvalue : (UInt64.ofNat r.number).toNat = r.number % UInt64.size := UInt64.toNat_ofNat'
  have hnumber : number (ds.map .char) = ⟨ds.map .char, some (.int (.ofNat r.number)),
      if r.number < UInt64.size then none else some (.overflow (.ofList ds))⟩ := by
    rw [number, chars_map_char]
    rfl
  by_cases hfits : r.number < UInt64.size
  · have hrecords : j = [.view (.ofToken ⟨.int (.ofNat r.number), r.span text⟩)] := by
      simp [j, hnumber, records, hover, hfits]
    rw [hrecords, if_neg (Nat.not_le.2 hfits), ← hvalue]
    exact ⟨rfl, rfl⟩
  · have hrecords : j = [.finding (r.finding text),
        .view (.ofToken ⟨.int (.ofNat r.number), r.span text⟩)] := by
      simp [j, hnumber, records, place, hover, hfits, DigitRun.finding, r]
    rw [hrecords, if_pos (Nat.not_lt.1 hfits), ← hvalue]
    exact ⟨rfl, rfl⟩

/-- A piece that does not start with a digit is no number, and is not reported as one. -/
theorem records_other (p : Pos) {g : Glyph} (h : g.isDigit = false) (rest : List Glyph) :
    ((front g rest).records p).tokens.filterMap Token.number? = [] ∧
      ((front g rest).records p).findings.filter (·.problem.isOverflow) = [] := by
  cases g with
  | malformed fault => exact ⟨rfl, rfl⟩
  | char c =>
    have hc : c.isDigit ≠ true := Bool.eq_false_iff.1 h
    rw [front, if_neg hc]
    split
    · exact ⟨rfl, rfl⟩
    split
    · unfold slash
      repeat' split
      all_goals exact ⟨rfl, rfl⟩
    split
    · unfold word Kind.ofWord
      repeat' split
      all_goals exact ⟨rfl, rfl⟩
    split
    · next kind hkind =>
      unfold Kind.ofChar? at hkind
      split at hkind <;> cases hkind <;> exact ⟨rfl, rfl⟩
    · exact ⟨rfl, rfl⟩

/-- The numbers among the tokens of pieces are those of the runs of digits, and those that do not
fit are reported. -/
theorem journal_digitRuns {text : List Glyph} {i : Nat} {ps : List Piece}
    (hfront : ∀ piece ∈ ps, ∃ g rest, piece = front g rest)
    (h : text.drop i = ps.flatMap glyphs) :
    (journal (placeOf text i) ps).tokens.filterMap Token.number?
        = (digitRuns i ps).map (fun r => (r.number % UInt64.size, r.span text)) ∧
      (journal (placeOf text i) ps).findings.filter (·.problem.isOverflow)
        = ((digitRuns i ps).filter (UInt64.size ≤ ·.number)).map (DigitRun.finding text) := by
  induction ps generalizing i with
  | nil => exact ⟨rfl, rfl⟩
  | cons piece ps ih =>
    rw [List.flatMap_cons] at h
    have hdrop : text.drop (i + piece.glyphs.length) = ps.flatMap glyphs := by
      rw [← List.drop_drop, h, List.drop_left]
    obtain ⟨htokens, hfindings⟩ :=
      ih (fun piece' hpiece' => hfront piece' (List.mem_cons_of_mem _ hpiece')) hdrop
    rw [journal, Journal.tokens_append, Journal.findings_append, List.filterMap_append,
      List.filter_append, ← placeOf_add h, htokens, hfindings]
    obtain ⟨g, rest, rfl⟩ := hfront piece (List.mem_cons_self ..)
    by_cases hg : g.isDigit = true
    · obtain ⟨ds, -, hne, hdigits, hnumber, -, -⟩ := digits_of_front hg rest
      rw [hnumber] at h ⊢
      obtain ⟨hint, hover⟩ := records_number hne h
      rw [hint, hover, digitRuns_number i hne hdigits, List.filter_cons]
      simp only [number, List.length_map, decide_eq_true_eq]
      split <;> exact ⟨rfl, rfl⟩
    · obtain ⟨hint, hover⟩ := records_other (placeOf text i) (Bool.eq_false_iff.2 hg) rest
      obtain ⟨more, -, -, -, -, hglyphs, -⟩ := taken_front .start rest g
      have hhead : ¬ (front g rest).glyphs.head?.any Glyph.isDigit = true := by
        rw [hglyphs]
        exact hg
      rw [hint, hover, digitRuns, if_neg hhead]
      exact ⟨rfl, rfl⟩

end Piece

/-- What comes into view is not reported as a number. -/
theorem overflows_arrival (failure : Option String) (p : Pos) (glyphs : List Glyph) :
    (Journal.findings (arrival failure p glyphs)).filter (·.problem.isOverflow) = [] := by
  rcases glyphs with - | ⟨c | fault, rest⟩
  · cases failure <;> rfl
  · rfl
  · rfl

/-- A failure to read changes nothing in the reports of numbers. -/
theorem overflows_scanFrom (failure : Option String) (p : Pos) (phase : Phase)
    (glyphs : List Glyph) :
    (Journal.findings (scanFrom failure p phase #[] glyphs).toList).filter (·.problem.isOverflow)
      = (Journal.findings (scanFrom none p phase #[] glyphs).toList).filter
        (·.problem.isOverflow) := by
  induction glyphs generalizing p phase with
  | nil => rfl
  | cons g rest ih =>
    rw [scanFrom, scanFrom_acc, scanFrom, scanFrom_acc none]
    simp only [Array.toList_appendList, Journal.findings_append, List.filter_append,
      overflows_arrival, ih]

/-- The reports of numbers in a text that may be cut off are those of its pieces. -/
theorem Text.overflows_scan (text : Text) :
    (text.opening.findings ++ text.scan.findings).filter (·.problem.isOverflow)
      = (Piece.journal .start (pieces text.glyphs)).findings.filter (·.problem.isOverflow) := by
  obtain ⟨glyphs, failure⟩ := text
  obtain ⟨body, hscan, hlexical⟩ := Text.scan_pieces glyphs
  have hopening : (Text.opening ⟨glyphs, failure⟩).findings.filter (·.problem.isOverflow) = [] :=
    overflows_arrival failure .start glyphs
  have hbody : (Text.scan ⟨glyphs, none⟩).findings
      = (Piece.journal .start (pieces glyphs)).findings := by
    rw [hscan, Journal.findings_append, ← Journal.findings_lexical body, hlexical]
    exact List.append_nil _
  rw [List.filter_append, hopening, List.nil_append, ← hbody]
  exact overflows_scanFrom failure .start .gap glyphs

/-! ## What is handed out and reported -/

/-- Numbers are exact.  The calls up to the first end of the file hand out one token for each number
of the source, in order and at the place of its digits, and this token carries the number modulo the
size of words.  Of the reports that are made, those of numbers that do not fit are one for each
number that is not below the size of words, in order; each quotes the digits and has the place of
the token.  The numbers of the source are its longest runs of digits that are not in the middle of
another piece, one behind the other; if the source consists of digits only, these are one number. -/
theorem Context.lex_numbers_exact (ctx : Context) (path : Option String) (input : Input) :
    let glyphs := input.text.glyphs
    let opened := ctx.openLexer path input
    ∃ (tokens : List (Token String)) (runs : List DigitRun),
      let run := opened.context.lexMany opened.value (tokens.length + 1)
      run.1.map (View.map Symbol.name) = tokens.map .ofToken ++ [.eof input.text.eof] ∧
      tokens.filterMap Token.number?
        = runs.map (fun r => (r.number % UInt64.size, r.span glyphs)) ∧
      (run.2.diagnostics.toList.drop ctx.diagnostics.size).filter (·.problem.isOverflow)
        = (runs.filter (UInt64.size ≤ ·.number)).map (fun r =>
          ⟨⟨path, r.span glyphs⟩, .overflow (.ofList r.digits)⟩) ∧
      (∀ r, r ∈ runs ↔ r.StandsIn glyphs) ∧
      (runs.Pairwise fun r r' => r.first + r.digits.length ≤ r'.first) ∧
      ∀ ds : List Char, ds ≠ [] → (∀ c ∈ ds, c.isDigit = true) → glyphs = ds.map .char →
        runs = [⟨0, ds⟩] := by
  intro glyphs opened
  obtain ⟨hviews, hdiagnostics⟩ := ctx.lexMany_text path input rfl
  have hjournal := Piece.journal_digitRuns (i := 0) (fun _ => Piece.exists_front_of_mem)
    (flatMap_pieces glyphs).symm
  refine ⟨(Piece.journal .start (pieces glyphs)).tokens, Piece.digitRuns 0 (pieces glyphs), hviews,
    hjournal.1, ?_, fun _ => Piece.mem_digitRuns_iff, (Piece.digitRuns_pairwise 0 _).2, ?_⟩
  · have hreports := input.text.overflows_scan.trans hjournal.2
    rw [hdiagnostics, ← Array.length_toList, List.drop_left, List.filter_map]
    exact (congrArg (List.map (Finding.diagnostic path)) hreports).trans List.map_map
  · intro ds hne hdigits hglyphs
    have hend : ∀ g ∈ ([] : List Glyph).head?, g.isDigit = false := by simp
    have hpieces := Piece.pieces_of_digits hne hdigits hend
    rw [List.append_nil, pieces] at hpieces
    rw [hglyphs, hpieces, Piece.digitRuns_number 0 hne hdigits]
    rfl

end LetCalc
