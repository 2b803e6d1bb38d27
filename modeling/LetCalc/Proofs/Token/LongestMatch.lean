import LetCalc.Context
import LetCalc.Proofs.Input.Slices
import LetCalc.Proofs.Token.Pieces
import Mathlib.Data.List.TakeDrop

/-!
# Longest match

Tokens are handed out one at a time, each with what was found in front of it.  The calls up to the
end of the file go through the whole scan, so they hand out the tokens of the pieces of the text,
which are as long as they can be, and report what is wrong with the pieces.

Main results:

- Definition `Context.lexMany`: some calls in a row.
- Theorem `Context.lexMany_pending`: as many calls as there are views go through all records.
- Theorem `Context.lex_longest_match`: what the calls up to the end of the file hand out and report.
-/

namespace LetCalc

/-! ## Tokens one by one -/

/-- What came into view, tokens and the end of the file. -/
def Journal.shown (journal : Journal) : List (View String) := journal.filterMap Record.view?

namespace Journal

@[simp]
theorem shown_append (j k : Journal) : shown (j ++ k) = shown j ++ shown k := List.filterMap_append

@[simp]
theorem shown_lexical (j : Journal) : shown (lexical j) = shown j :=
  filterMap_lexical (fun _ hview _ => hview) j

end Journal

/-- All that comes into view in the pieces of a text are tokens. -/
theorem Piece.shown_journal (p : Pos) (ps : List Piece) :
    (journal p ps).shown = (journal p ps).tokens.map .ofToken := by
  induction ps generalizing p with
  | nil => rfl
  | cons piece ps ih =>
    have hrecords : (piece.records p).shown = (piece.records p).tokens.map .ofToken := by
      rcases piece with ⟨glyphs, - | kind, - | problem⟩ <;> rfl
    rw [journal, Journal.shown_append, Journal.tokens_append, List.map_append, hrecords, ih]

/-- A lexer hands out the next view together with the records in front of it. -/
theorem Lexer.next_view (path : Option String) (eof : Span) {before : Journal}
    (h : before.shown = []) (v : View String) (after : Journal) :
    next ⟨path, eof, before ++ .view v :: after⟩
      = (v, before ++ [.view v], ⟨path, eof, after⟩) := by
  have hbefore : ∀ record ∈ before, record.view?.isNone = true := by
    simpa [Journal.shown, List.filterMap_eq_nil_iff] using h
  rw [next, List.span_eq_takeWhile_dropWhile, List.takeWhile_append_of_pos hbefore,
    List.dropWhile_append_of_pos hbefore]
  simp [Record.view?]

theorem Interner.map_name_internView (interner : Interner) (view : View String) :
    (interner.internView view).1.map Symbol.name = view := by
  rcases view with ⟨- | kind, span⟩
  · rfl
  · cases kind <;> rfl

namespace Context

/-- What `n` calls of `lex` in a row hand out, and the context after them. -/
def lexMany (ctx : Context) (lexer : Lexer) : Nat → List (View Symbol) × Context
  | 0 => ([], ctx)
  | n + 1 =>
    let lexed := ctx.lex lexer
    let more := lexed.context.lexMany lexed.value.2 n
    (lexed.value.1 :: more.1, more.2)

/-- A call hands out the next view and reports what was found in front of it. -/
theorem lex_view (ctx : Context) (path : Option String) (eof : Span) {before : Journal}
    (h : before.shown = []) (v : View String) (after : Journal) :
    ∃ view journal ctx', ctx.lex ⟨path, eof, before ++ .view v :: after⟩
        = ⟨(view, ⟨path, eof, after⟩), journal, ctx'⟩ ∧
      view.map Symbol.name = v ∧
      ctx'.diagnostics.toList
        = ctx.diagnostics.toList ++ before.findings.map (Finding.diagnostic path) := by
  have hview : Journal.findings [.view v] = [] := rfl
  simp only [lex, Lexer.next_view path eof h]
  refine ⟨_, _, _, rfl, Interner.map_name_internView _ v, ?_⟩
  rw [diagnostics_record, Journal.findings_append, hview, List.append_nil]

/-- As many calls as views are to come, the last of which is the last record, go through all
records. -/
theorem lexMany_pending (ctx : Context) (path : Option String) (eof : Span) (before : Journal)
    (h : before.shown = []) (j : Journal) (last : View String) :
    ∃ views ctx', ctx.lexMany ⟨path, eof, before ++ (j ++ [.view last])⟩ (j.shown.length + 1)
        = (views, ctx') ∧
      views.map (View.map Symbol.name) = j.shown ++ [last] ∧
      ctx'.diagnostics.toList
        = ctx.diagnostics.toList ++ (before ++ j).findings.map (Finding.diagnostic path) := by
  induction j generalizing ctx before with
  | nil =>
    rcases ctx.lex_view path eof h last [] with ⟨view, journal, ctx', hlex, hview, hreported⟩
    refine ⟨[view], ctx', ?_, congrArg ([·]) hview, ?_⟩
    · rw [List.nil_append, lexMany, hlex]
      rfl
    · rwa [List.append_nil]
  | cons record rest ih =>
    cases hrecord : record.view? with
    | none =>
      have hbefore : Journal.shown (before ++ [record]) = [] := by
        rw [Journal.shown_append, h]
        simp [Journal.shown, hrecord]
      have hshown : Journal.shown (record :: rest) = Journal.shown rest :=
        List.filterMap_cons_none hrecord
      have hmore := ih ctx (before ++ [record]) hbefore
      rw [List.append_assoc, List.append_assoc, ← hshown] at hmore
      exact hmore
    | some v =>
      obtain rfl : record = .view v := by
        cases record <;> simp_all [Record.view?]
      rcases ctx.lex_view path eof h v (rest ++ [.view last]) with
        ⟨view, journal, mid, hlex, hview, hreported⟩
      rcases ih mid [] rfl with ⟨views, ctx', hrun, hviews, hdiagnostics⟩
      refine ⟨view :: views, ctx', ?_, congrArg₂ (· :: ·) hview hviews, ?_⟩
      · have hstep := congrArg (fun run => (view :: run.1, run.2)) hrun
        rw [← hstep, List.cons_append, Journal.shown, List.filterMap_cons_some hrecord,
          List.length_cons, lexMany, hlex]
        rfl
      · have hfindings : Journal.findings (.view v :: rest) = Journal.findings rest := rfl
        rw [hdiagnostics, hreported, Journal.findings_append before, hfindings, List.map_append,
          List.append_assoc, List.nil_append]

/-- Tokens are longest matches.  The items of the bytes are cut into pieces, each item once; the
calls up to the first end of the file hand out the tokens of the pieces, and what they report is
what is wrong with the pieces, both in order and at their places. -/
theorem lex_longest_match (ctx : Context) (path : Option String) (bytes : List UInt8) :
    ∃ glyphs, (Input.ofBytes bytes).answers 1 = glyphs.map (fun g => some (.glyph g)) ++ [none] ∧
      (pieces glyphs).flatMap Piece.glyphs = glyphs ∧
      let expected := Piece.journal .start (pieces glyphs)
      let opened := ctx.openLexer path (.ofBytes bytes)
      let run := opened.context.lexMany opened.value (expected.tokens.length + 1)
      run.1.map (View.map Symbol.name)
          = expected.tokens.map .ofToken ++ [.eof (.single (Pos.start.afterAll glyphs))] ∧
        run.2.diagnostics.toList
          = ctx.diagnostics.toList ++ expected.findings.map (Finding.diagnostic path) := by
  rcases Input.exists_split bytes with ⟨slices, hsplit⟩
  refine ⟨slices.map Prod.fst, ?_, flatMap_pieces _, ?_⟩
  · rw [hsplit.answers_eq, List.map_map]
    rfl
  intro expected opened run
  rcases Text.scan_pieces (slices.map Prod.fst) with ⟨body, hscan, hlexical⟩
  rw [← hsplit.text_eq] at hscan
  have hshown : body.shown = expected.tokens.map .ofToken := by
    rw [← Journal.shown_lexical, hlexical]
    exact Piece.shown_journal .start _
  have hopened : opened.context.diagnostics.toList = ctx.diagnostics.toList := by
    have hopening : (Input.ofBytes bytes).text.opening.findings = [] := by
      rw [hsplit.text_eq, Text.findings_opening]
    refine (diagnostics_record ctx path _).trans ?_
    simp [hopening]
  rcases lexMany_pending opened.context path (Input.ofBytes bytes).text.eof [] rfl body _ with
    ⟨views, ctx', hrun, hviews, hdiagnostics⟩
  rw [List.nil_append, ← hscan, hshown, List.length_map] at hrun
  have hrun' : run = (views, ctx') := hrun
  rw [hrun', ← hshown]
  refine ⟨hviews, ?_⟩
  rw [hdiagnostics, hopened, List.nil_append, ← Journal.findings_lexical, hlexical]

/-- One run of digits and nothing else can draw a report. -/
theorem lex_reports_overflow :
    let bytes := "18446744073709551616".toByteArray.data.toList
    let opened := (Context.empty 0).openLexer none (.ofBytes bytes)
    let run := opened.context.lexMany opened.value 2
    (∀ b ∈ bytes, '0'.toNat ≤ b.toNat ∧ b.toNat ≤ '9'.toNat) ∧
      run.1.map View.kind = [some (.int 0), none] ∧
      run.2.diagnostics.toList
        = [⟨⟨none, ⟨⟨1, 1⟩, ⟨1, 20⟩⟩⟩, .overflow "18446744073709551616"⟩] := by
  decide +kernel

end Context

end LetCalc
