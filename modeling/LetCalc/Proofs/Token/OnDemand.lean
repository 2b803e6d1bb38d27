import LetCalc.Proofs.Input.Stream
import LetCalc.Proofs.Program.Source
import LetCalc.Proofs.Token.Places

/-!
# Reading on demand

A lexer need not scan its source at once.  One that takes the next item of the input only when the
glyph in view has been used up hands out the same tokens, with the same records, call by call.  It
shows what is read and when: the first failure or end is the last event that is taken, and after
it every call hands out the end of the file, takes nothing and reports nothing.

Main results:

- Definition `LiveLexer.scan`: scanning up to the next token, item by item.
- Theorem `LiveLexer.scan_spec`: scanning item by item makes the records of the scan of the text.
- Theorem `LiveLexer.Follows.run`: call by call the same tokens and records.
- Theorem `LiveLexer.run_tokens`: nothing behind the first failure or end is ever taken.
- Theorem `Context.lex_until_stopped`: only what precedes the first failure or end counts.
-/

namespace LetCalc

/-! ## Calls in a row -/

namespace Journal

/-- Some records are without a view, or a view stands behind such records. -/
theorem shown_cases (journal : Journal) :
    journal.shown = [] ∨ ∃ (before : Journal) (v : View String) (after : Journal),
      journal = before ++ .view v :: after ∧ before.shown = [] ∧
        journal.shown = v :: after.shown := by
  induction journal with
  | nil => exact Or.inl rfl
  | cons record rest ih =>
    cases hrecord : record.view? with
    | some v =>
      obtain rfl : record = .view v := by
        cases record <;> simp_all [Record.view?]
      exact Or.inr ⟨[], v, rest, rfl, rfl, rfl⟩
    | none =>
      have hrest : Journal.shown (record :: rest) = Journal.shown rest :=
        List.filterMap_cons_none hrecord
      rcases ih with hnone | ⟨before, v, after, rfl, hbefore, hshown⟩
      · exact Or.inl (hrest.trans hnone)
      · refine Or.inr ⟨record :: before, v, after, rfl, ?_, hrest.trans hshown⟩
        exact (List.filterMap_cons_none hrecord).trans hbefore

end Journal

namespace Lexer

/-- What some calls of `next` in a row hand out and record, and the lexer after them. -/
def run (lexer : Lexer) : Nat → List (View String × Journal) × Lexer
  | 0 => ([], lexer)
  | n + 1 =>
    let (view, journal, lexer) := lexer.next
    let more := lexer.run n
    ((view, journal) :: more.1, more.2)

theorem path_next (lexer : Lexer) : lexer.next.2.2.path = lexer.path := by
  unfold next
  split <;> rfl

/-- A lexer that has no views to come hands out the end of the file. -/
theorem next_end (path : Option String) (eof : Span) {pending : Journal} (h : pending.shown = []) :
    next ⟨path, eof, pending⟩ = (.eof eof, pending ++ [.view (.eof eof)], ⟨path, eof, []⟩) := by
  have hpending : ∀ record ∈ pending, record.view?.isNone = true := by
    simpa [Journal.shown, List.filterMap_eq_nil_iff] using h
  rw [next, List.span_eq_takeWhile_dropWhile, List.takeWhile_eq_self_iff.2 hpending,
    List.dropWhile_eq_nil_iff.2 hpending]

theorem run_done (path : Option String) (eof : Span) (n : Nat) :
    (run ⟨path, eof, []⟩ n).2 = ⟨path, eof, []⟩ := by
  induction n with
  | zero => rfl
  | succ n ih => exact ih

/-- Calls in a row go on where those before them have left off. -/
theorem run_add (lexer : Lexer) (m n : Nat) :
    (lexer.run (m + n)).2 = ((lexer.run m).2.run n).2 := by
  induction m generalizing lexer with
  | zero => rw [Nat.zero_add, run]
  | succ m ih =>
    rw [Nat.succ_add]
    exact ih lexer.next.2.2

/-- The calls hand out the views to come, and then the end of the file again and again. -/
theorem views_run (lexer : Lexer) (n : Nat) :
    (lexer.run n).1.map Prod.fst = lexer.pending.shown.take n
      ++ List.replicate (n - lexer.pending.shown.length) (.eof lexer.eof) := by
  induction n generalizing lexer with
  | zero => simp [run]
  | succ n ih =>
    rcases lexer with ⟨path, eof, pending⟩
    rcases Journal.shown_cases pending with hnone | ⟨before, v, after, rfl, hbefore, hshown⟩
    · have hrest := ih ⟨path, eof, []⟩
      rw [run, next_end path eof hnone]
      simp only [List.map_cons, hrest, hnone]
      simp [Journal.shown, List.replicate_succ]
    · have hrest := ih ⟨path, eof, after⟩
      rw [run, next_view path eof hbefore]
      simp only [List.map_cons, hrest, hshown]
      simp

/-- As many calls as views are to come, the last of which is the last record, leave none. -/
theorem run_through (path : Option String) (eof : Span) (body : Journal) (v : View String) :
    (run ⟨path, eof, body ++ [.view v]⟩ (body.shown.length + 1)).2 = ⟨path, eof, []⟩ := by
  induction hlength : body.shown.length generalizing body with
  | zero =>
    rw [run, next_view path eof (List.length_eq_zero_iff.1 hlength)]
    rfl
  | succ n ih =>
    rcases body.shown_cases with hnone | ⟨before, w, after, rfl, hbefore, hshown⟩
    · rw [hnone] at hlength
      cases hlength
    · rw [hshown] at hlength
      rw [List.append_assoc, List.cons_append, run, next_view path eof hbefore]
      exact ih after (Nat.succ.inj hlength)

end Lexer

namespace Context

/-- Calls in a context hand out what the calls of the lexer hand out, and report what is found in
their records. -/
theorem lexMany_run (ctx : Context) (lexer : Lexer) (n : Nat) :
    (ctx.lexMany lexer n).1.map (View.map Symbol.name) = (lexer.run n).1.map Prod.fst ∧
      (ctx.lexMany lexer n).2.diagnostics.toList = ctx.diagnostics.toList
        ++ (Journal.findings ((lexer.run n).1.flatMap Prod.snd)).map
          (Finding.diagnostic lexer.path) := by
  induction n generalizing ctx lexer with
  | zero => exact ⟨rfl, (List.append_nil _).symm⟩
  | succ n ih =>
    rcases ih (ctx.lex lexer).context (ctx.lex lexer).value.2 with ⟨hviews, hdiagnostics⟩
    have hpath : (ctx.lex lexer).value.2.path = lexer.path := lexer.path_next
    have hlex : (ctx.lex lexer).context.diagnostics.toList = ctx.diagnostics.toList
        ++ (Journal.findings lexer.next.2.1).map (Finding.diagnostic lexer.path) := by
      refine (diagnostics_record _ lexer.next.2.2.path _).trans ?_
      rw [lexer.path_next]
      rfl
    constructor
    · exact congrArg₂ (· :: ·) (Interner.map_name_internView _ _) hviews
    · rw [hpath] at hdiagnostics
      refine hdiagnostics.trans ?_
      rw [hlex, Lexer.run, List.flatMap_cons, Journal.findings_append, List.map_append,
        List.append_assoc]
      rfl

/-- A call of a lexer that has nothing to come hands out the end of the file and changes nothing. -/
theorem lex_done (ctx : Context) (path : Option String) (eof : Span) :
    ctx.lex ⟨path, eof, []⟩ = ⟨(.eof eof, ⟨path, eof, []⟩), [.view (.eof eof)], ctx⟩ := by
  have hnothing : Journal.findings [.view (.eof eof)] = [] := rfl
  have hrecord : ctx.record path [.view (.eof eof)] = ctx := by
    simp [record, hnothing]
  rw [lex, Lexer.next_end path eof rfl]
  exact congrArg (Outcome.mk _ _) hrecord

theorem lexMany_done (ctx : Context) (path : Option String) (eof : Span) (n : Nat) :
    ctx.lexMany ⟨path, eof, []⟩ n = (List.replicate n (.eof eof), ctx) := by
  induction n with
  | zero => rfl
  | succ n ih =>
    rw [lexMany, lex_done]
    simp only [ih]
    rfl

/-- Calls in a row go on where those before them have left off. -/
theorem lexMany_add (ctx : Context) (lexer : Lexer) (m n : Nat) :
    ctx.lexMany lexer (m + n) =
      ((ctx.lexMany lexer m).1 ++ ((ctx.lexMany lexer m).2.lexMany (lexer.run m).2 n).1,
        ((ctx.lexMany lexer m).2.lexMany (lexer.run m).2 n).2) := by
  induction m generalizing ctx lexer with
  | zero => simp [lexMany, Lexer.run]
  | succ m ih =>
    rw [Nat.succ_add, lexMany, lexMany, ih]
    rfl

/-- What calls hand out depends on the names in the table and on the views to come only. -/
theorem lexMany_congr {ctx ctx' : Context} (h : ctx.interner = ctx'.interner) {lexer lexer' : Lexer}
    {n : Nat} (hviews : (lexer.run n).1.map Prod.fst = (lexer'.run n).1.map Prod.fst) :
    (ctx.lexMany lexer n).1 = (ctx'.lexMany lexer' n).1 := by
  induction n generalizing ctx ctx' lexer lexer' with
  | zero => rfl
  | succ n ih =>
    simp only [Lexer.run, List.map_cons, List.cons.injEq] at hviews
    have hnext : (ctx.lex lexer).context.interner = (ctx'.lex lexer').context.interner := by
      simp only [lex, record]
      rw [hviews.1, h]
    have hview : (ctx.lex lexer).value.1 = (ctx'.lex lexer').value.1 := by
      simp only [lex]
      rw [hviews.1, h]
    exact congrArg₂ (· :: ·) hview (ih hnext hviews.2)

end Context

/-! ## Reading item by item -/

/-- A lexer with the rest of its input behind it. -/
structure LiveLexer where
  path : Option String
  /-- The events that have not been taken. -/
  input : Input
  /-- The glyph in view, or none once nothing more is read. -/
  ahead : Option Glyph
  /-- Where the glyph in view stands, or where the file ends. -/
  pos : Pos

namespace LiveLexer

/-- Takes the next item of an input into view at `pos`.  After a failure or an end, nothing is in
view. -/
def fill (path : Option String) (pos : Pos) (input : Input) : LiveLexer × Journal :=
  match input.next with
  | (some (.glyph g), rest) => (⟨path, rest, some g, pos⟩, arrival none pos [g])
  | (some (.failed reason), rest) => (⟨path, rest, none, pos⟩, arrival (some reason) pos [])
  | (none, rest) => (⟨path, rest, none, pos⟩, [])

/-- A lexer at the start of an input, with its first item in view. -/
def ofInput (path : Option String) (input : Input) : LiveLexer × Journal := fill path .start input

/-- Uses up the glyph in view and takes the next item. -/
def take (lexer : LiveLexer) (g : Glyph) : LiveLexer × Journal :=
  fill lexer.path (lexer.pos.after g) lexer.input

/-- What is left to take, the glyph in view included. -/
def size (lexer : LiveLexer) : Nat := lexer.input.length + lexer.ahead.toList.length

/-- Taking an item leaves less to take. -/
theorem size_take_lt {lexer : LiveLexer} {g : Glyph} (h : lexer.ahead = some g) :
    (lexer.take g).1.size < lexer.size := by
  have hsize : lexer.size = lexer.input.length + 1 := by
    rw [size, h]
    rfl
  rw [hsize, take, fill]
  split
  · next hnext => exact Nat.succ_lt_succ (Input.length_next_lt hnext)
  · next hnext => exact Nat.lt_succ_of_lt (Input.length_next_lt hnext)
  · next hnext => exact Nat.lt_succ_of_le (Input.length_next_le hnext)

/-- Scans on in the given phase.  A glyph that belongs to the phase is used up.  Otherwise the phase
is complete: if it is a token, this is handed out and the glyph stays in view; if not, the glyph
starts another phase, or the file ends. -/
def scan (lexer : LiveLexer) (phase : Phase) : View String × Journal × LiveLexer :=
  match _h : lexer.ahead with
  | some g =>
    let taken := lexer.take g
    match phase.extend? lexer.pos g with
    | some phase =>
      let more := taken.1.scan phase
      (more.1, taken.2 ++ more.2.1, more.2.2)
    | none =>
      match phase.complete.shown with
      | view :: _ => (view, phase.complete, lexer)
      | [] =>
        let started := Phase.start lexer.pos g
        let more := taken.1.scan started.2
        (more.1, phase.complete ++ started.1 ++ taken.2 ++ more.2.1, more.2.2)
  | none =>
    match phase.complete.shown with
    | view :: _ => (view, phase.complete, lexer)
    | [] => (.eof (.single lexer.pos), phase.complete ++ [.view (.eof (.single lexer.pos))], lexer)
termination_by lexer.size
decreasing_by
  · exact size_take_lt _h
  · exact size_take_lt _h

/-- The next token, or the end of the file; what is recorded up to it; and the lexer after it. -/
def next (lexer : LiveLexer) : View String × Journal × LiveLexer := lexer.scan .gap

/-- What some calls of `next` in a row hand out and record, and the lexer after them. -/
def run (lexer : LiveLexer) : Nat → List (View String × Journal) × LiveLexer
  | 0 => ([], lexer)
  | n + 1 =>
    let (view, journal, lexer) := lexer.next
    let more := lexer.run n
    ((view, journal) :: more.1, more.2)

/-! ## The same scan -/

/-- The glyphs from the one in view on, and the failure that cuts them off. -/
def text (lexer : LiveLexer) : Text :=
  match lexer.ahead with
  | some g => ⟨g :: lexer.input.text.glyphs, lexer.input.text.failure⟩
  | none => ⟨[], none⟩

/-- The records of scanning on in the given phase, to the end of the text. -/
def pending (lexer : LiveLexer) (phase : Phase) : Journal :=
  (scanFrom lexer.text.failure lexer.pos phase #[] lexer.text.glyphs).toList

/-- Where the file ends. -/
def eof (lexer : LiveLexer) : Span := .single (lexer.pos.afterAll lexer.text.glyphs)

/-- The events that are left when the end of the file is in view. -/
def unread (lexer : LiveLexer) : Input :=
  match lexer.ahead with
  | some _ => lexer.input.unread
  | none => lexer.input

/-- The first item of an input comes into view as the text of the input does. -/
theorem fill_spec (path : Option String) (pos : Pos) (input : Input) :
    (fill path pos input).1.path = path ∧ (fill path pos input).1.pos = pos ∧
      (fill path pos input).1.text.glyphs = input.text.glyphs ∧
      (fill path pos input).1.unread = input.unread ∧
      (fill path pos input).2 = arrival input.text.failure pos input.text.glyphs ∧
      ∀ phase, (fill path pos input).1.pending phase
        = (scanFrom input.text.failure pos phase #[] input.text.glyphs).toList := by
  rcases input.next_cases with ⟨g, rest, hnext, hunread⟩ | ⟨reason, hnext⟩ | hnext
  · have htext := Input.text_of_next hnext
    have harrival : arrival none pos [g]
        = arrival rest.text.failure pos (g :: rest.text.glyphs) := by
      cases g <;> rfl
    have hfill : fill path pos input = (⟨path, rest, some g, pos⟩, arrival none pos [g]) := by
      rw [fill, hnext]
    rw [hfill, htext]
    exact ⟨rfl, rfl, rfl, hunread, harrival, fun _ => rfl⟩
  · have htext : input.text = ⟨[], some reason⟩ := Input.textFrom_failed #[] hnext
    have hfill : fill path pos input
        = (⟨path, input.unread, none, pos⟩, arrival (some reason) pos []) := by
      rw [fill, hnext]
    rw [hfill, htext]
    exact ⟨rfl, rfl, rfl, rfl, rfl, fun _ => rfl⟩
  · have htext : input.text = ⟨[], none⟩ := Input.textFrom_end #[] hnext
    have hfill : fill path pos input = (⟨path, input.unread, none, pos⟩, []) := by
      rw [fill, hnext]
    rw [hfill, htext]
    exact ⟨rfl, rfl, rfl, rfl, rfl, fun _ => rfl⟩

/-- Two lexers read the same source to the same end. -/
structure SameEnd (lexer lexer' : LiveLexer) : Prop where
  path : lexer'.path = lexer.path
  eof : lexer'.eof = lexer.eof
  unread : lexer'.unread = lexer.unread

theorem SameEnd.refl (lexer : LiveLexer) : SameEnd lexer lexer := ⟨rfl, rfl, rfl⟩

theorem SameEnd.trans {a b c : LiveLexer} (h : SameEnd a b) (h' : SameEnd b c) : SameEnd a c :=
  ⟨h'.path.trans h.path, h'.eof.trans h.eof, h'.unread.trans h.unread⟩

/-- Using up the glyph in view changes neither the source nor its end. -/
theorem sameEnd_take {lexer : LiveLexer} {g : Glyph} (h : lexer.ahead = some g) :
    SameEnd lexer (lexer.take g).1 := by
  rcases fill_spec lexer.path (lexer.pos.after g) lexer.input with
    ⟨hpath, hpos, hglyphs, hunread, -, -⟩
  refine ⟨hpath, ?_, ?_⟩
  · simp only [eof, take, text, h]
    rw [hpos, ← Pos.afterAll_cons, ← hglyphs]
    rfl
  · simp only [take, unread, h]
    exact hunread

/-- Using up the glyph in view is one step of the scan. -/
theorem pending_step {lexer : LiveLexer} {g : Glyph} (h : lexer.ahead = some g) (phase : Phase) :
    lexer.pending phase = (phase.step lexer.pos g).1 ++ (lexer.take g).2
      ++ (lexer.take g).1.pending (phase.step lexer.pos g).2 := by
  rcases fill_spec lexer.path (lexer.pos.after g) lexer.input with ⟨-, -, -, -, harrival, hpending⟩
  have htext : lexer.text = ⟨g :: lexer.input.text.glyphs, lexer.input.text.failure⟩ := by
    rw [text, h]
  simp only [take]
  rw [hpending, harrival, pending, htext, scanFrom, scanFrom_acc]
  simp

/-- A glyph that belongs to the phase goes on with it. -/
theorem pending_extend {lexer : LiveLexer} {g : Glyph} (h : lexer.ahead = some g)
    {phase phase' : Phase} (hextend : phase.extend? lexer.pos g = some phase') :
    lexer.pending phase = (lexer.take g).2 ++ (lexer.take g).1.pending phase' := by
  rw [pending_step h, Phase.step, hextend]
  rfl

/-- Between tokens, a glyph starts a phase. -/
theorem pending_start {lexer : LiveLexer} {g : Glyph} (h : lexer.ahead = some g) :
    lexer.pending .gap = (Phase.start lexer.pos g).1 ++ (lexer.take g).2
      ++ (lexer.take g).1.pending (Phase.start lexer.pos g).2 := pending_step h .gap

/-- A glyph that does not belong to the phase completes it. -/
theorem pending_complete {lexer : LiveLexer} {g : Glyph} (h : lexer.ahead = some g) {phase : Phase}
    (hextend : phase.extend? lexer.pos g = none) :
    lexer.pending phase = phase.complete ++ lexer.pending .gap := by
  rw [pending_start h, pending_step h, Phase.step, hextend]
  simp only [List.append_assoc]

/-- Where nothing is in view, the phase is complete and the file ends. -/
theorem pending_end {lexer : LiveLexer} (h : lexer.ahead = none) (phase : Phase) :
    lexer.pending phase = phase.complete ++ [.view (.eof (.single lexer.pos))] := by
  simp [pending, text, h, scanFrom]

/-- What comes into view is no token yet. -/
theorem shown_take (lexer : LiveLexer) (g : Glyph) : (lexer.take g).2.shown = [] := by
  have harrival := (fill_spec lexer.path (lexer.pos.after g) lexer.input).2.2.2.2.1
  rw [take, harrival]
  rcases lexer.input.text with ⟨- | ⟨c | fault, glyphs⟩, - | reason⟩ <;> rfl

/-- A glyph that starts a phase is no token yet. -/
theorem shown_start (p : Pos) (g : Glyph) : (Phase.start p g).1.shown = [] := by
  unfold Phase.start
  split
  · rfl
  · repeat' split
    all_goals rfl

/-- Completing a phase records no token, or one behind which there is nothing. -/
theorem complete_cases (phase : Phase) :
    phase.complete.shown = [] ∨ ∃ (before : Journal) (v : View String),
      phase.complete = before ++ [.view v] ∧ before.shown = [] := by
  cases phase with
  | gap | lineComment | blockComment => exact Or.inl rfl
  | mark | slash | word => exact Or.inr ⟨[], _, rfl, rfl⟩
  | number run numeral =>
    let v : View String := .ofToken ⟨.int numeral.value, run.span⟩
    by_cases hfits : numeral.fits = true
    · exact Or.inr ⟨[], v, by simp [Phase.complete, hfits, v], rfl⟩
    · exact Or.inr ⟨[.finding ⟨run.span, .overflow run.text⟩], v,
        by simp [Phase.complete, hfits, v], rfl⟩

/-- What scanning on in a phase comes to: the next view with what was recorded up to it, from the
front of the records of the whole scan, or the end of the file if they are all of them. -/
structure Scanned (lexer : LiveLexer) (phase : Phase) (out : View String × Journal × LiveLexer) :
    Prop where
  sameEnd : SameEnd lexer out.2.2
  journal : ∃ before : Journal, out.2.1 = before ++ [.view out.1] ∧ before.shown = []
  pending : lexer.pending phase = out.2.1 ++ out.2.2.pending .gap ∨
    lexer.pending phase = out.2.1 ∧ out.2.2.ahead = none

/-- A token is handed out before the glyph in view is used up. -/
theorem Scanned.token {lexer : LiveLexer} {phase : Phase} {view : View String}
    {views : List (View String)} (hshown : phase.complete.shown = view :: views)
    (hpending : lexer.pending phase = phase.complete ++ lexer.pending .gap) :
    Scanned lexer phase (view, phase.complete, lexer) := by
  refine ⟨.refl lexer, ?_, Or.inl hpending⟩
  rcases complete_cases phase with hnone | ⟨before, v, hcomplete, hbefore⟩
  · rw [hnone] at hshown
    cases hshown
  · rw [hcomplete, Journal.shown_append, hbefore] at hshown
    cases hshown
    exact ⟨before, hcomplete, hbefore⟩

/-- Records in front that are no views make no difference to what is handed out behind them. -/
theorem Scanned.behind {lexer next : LiveLexer} {phase phase' : Phase} {front : Journal}
    {out : View String × Journal × LiveLexer} (h : Scanned next phase' out)
    (hend : SameEnd lexer next) (hfront : front.shown = [])
    (hpending : lexer.pending phase = front ++ next.pending phase') :
    Scanned lexer phase (out.1, front ++ out.2.1, out.2.2) := by
  rcases h.journal with ⟨before, hjournal, hbefore⟩
  refine ⟨hend.trans h.sameEnd, ⟨front ++ before, ?_, ?_⟩, ?_⟩
  · rw [hjournal, List.append_assoc]
  · rw [Journal.shown_append, hfront, hbefore]
    rfl
  · rcases h.pending with hrest | ⟨hrest, hahead⟩
    · exact Or.inl (by rw [hpending, hrest, List.append_assoc])
    · exact Or.inr ⟨by rw [hpending, hrest], hahead⟩

/-- Scanning up to the next view goes through the front of the records of the whole scan. -/
theorem scan_spec (lexer : LiveLexer) (phase : Phase) : Scanned lexer phase (lexer.scan phase) := by
  fun_induction scan lexer phase with
  | case1 lexer phase g hahead taken phase' hextend more ih =>
    exact ih.behind (sameEnd_take hahead) (shown_take lexer g) (pending_extend hahead hextend)
  | case2 lexer phase g hahead hextend view views hshown =>
    exact .token hshown (pending_complete hahead hextend)
  | case3 lexer phase g hahead taken hextend hshown started more ih =>
    refine ih.behind (sameEnd_take hahead) ?_ ?_
    · rw [Journal.shown_append, Journal.shown_append, hshown, shown_start, shown_take]
      rfl
    · rw [pending_complete hahead hextend, pending_start hahead]
      simp only [List.append_assoc]
      rfl
  | case4 lexer phase hahead view views hshown =>
    apply Scanned.token hshown
    rw [pending_end hahead, pending_end hahead]
    rfl
  | case5 lexer phase hahead hshown =>
    refine ⟨.refl lexer, ⟨phase.complete, rfl, hshown⟩, Or.inr ⟨pending_end hahead phase, hahead⟩⟩

/-! ## The same calls -/

/-- The records of a scan end with the end of the file. -/
theorem pending_ne_nil (lexer : LiveLexer) (phase : Phase) : lexer.pending phase ≠ [] := by
  rcases scanFrom_last lexer.text.failure lexer.pos phase lexer.text.glyphs with ⟨body, hbody⟩
  rw [pending, hbody]
  simp

/-- The lexer has the records to come of the live lexer, or none if both have come to the end. -/
structure Follows (live : LiveLexer) (lexer : Lexer) : Prop where
  path : lexer.path = live.path
  eof : lexer.eof = live.eof
  pending : lexer.pending = live.pending .gap ∨ lexer.pending = [] ∧ live.ahead = none

/-- A lexer at the start of an input follows the live lexer. -/
theorem follows_ofInput (path : Option String) (input : Input) :
    Follows (ofInput path input).1 (Lexer.ofInput path input).1 ∧
      (ofInput path input).2 = (Lexer.ofInput path input).2 ∧
      (ofInput path input).1.unread = input.unread := by
  rcases fill_spec path .start input with ⟨hpath, hpos, hglyphs, hunread, harrival, hpending⟩
  refine ⟨⟨hpath.symm, ?_, Or.inl (hpending .gap).symm⟩, harrival, hunread⟩
  simp only [ofInput, eof, Lexer.ofInput, Text.eof]
  rw [hpos, hglyphs]
  rfl

/-- Where nothing is in view, a call hands out the end of the file and changes nothing. -/
theorem next_end {lexer : LiveLexer} (h : lexer.ahead = none) :
    lexer.next = (.eof lexer.eof, [.view (.eof lexer.eof)], lexer) := by
  have heof : lexer.eof = .single lexer.pos := by
    rw [eof, text, h]
    rfl
  rw [next, scan]
  split
  · next g hahead => cases h.symm.trans hahead
  · rw [heof]
    rfl

/-- One call of both lexers comes to the same. -/
theorem Follows.next {live : LiveLexer} {lexer : Lexer} (h : Follows live lexer) :
    lexer.next.1 = live.next.1 ∧ lexer.next.2.1 = live.next.2.1 ∧
      Follows live.next.2.2 lexer.next.2.2 ∧ live.next.2.2.unread = live.unread := by
  have hscan : Scanned live .gap live.next := live.scan_spec .gap
  rcases lexer with ⟨path, eof, pending⟩
  have hpath : live.next.2.2.path = path := hscan.sameEnd.path.trans h.path.symm
  have heof : live.next.2.2.eof = eof := hscan.sameEnd.eof.trans h.eof.symm
  rcases h.pending with hpending | ⟨hdone, hahead⟩
  · obtain rfl : pending = live.pending .gap := hpending
    rcases hscan.journal with ⟨before, hjournal, hbefore⟩
    rcases hscan.pending with hrest | ⟨hrest, hahead⟩
    · rw [hjournal, List.append_assoc, List.singleton_append] at hrest
      rw [hrest, Lexer.next_view path eof hbefore]
      exact ⟨rfl, hjournal.symm, ⟨hpath.symm, heof.symm, Or.inl rfl⟩, hscan.sameEnd.unread⟩
    · rw [hjournal] at hrest
      rw [hrest, Lexer.next_view path eof hbefore]
      exact ⟨rfl, hjournal.symm, ⟨hpath.symm, heof.symm, Or.inr ⟨rfl, hahead⟩⟩,
        hscan.sameEnd.unread⟩
  · obtain rfl : pending = [] := hdone
    have heof' : eof = live.eof := h.eof
    rw [next_end hahead, Lexer.next_end path eof rfl, heof']
    exact ⟨rfl, rfl, ⟨h.path, rfl, Or.inr ⟨rfl, hahead⟩⟩, rfl⟩

/-- Calls in a row of both lexers come to the same. -/
theorem Follows.run {live : LiveLexer} {lexer : Lexer} (h : Follows live lexer) (n : Nat) :
    (live.run n).1 = (lexer.run n).1 ∧ Follows (live.run n).2 (lexer.run n).2 ∧
      (live.run n).2.unread = live.unread := by
  induction n generalizing live lexer with
  | zero => exact ⟨rfl, h, rfl⟩
  | succ n ih =>
    rcases h.next with ⟨hview, hjournal, hnext, hunread⟩
    rcases ih hnext with ⟨hruns, hlast, hrest⟩
    refine ⟨?_, hlast, hrest.trans hunread⟩
    exact congrArg₂ (· :: ·) (Prod.ext hview.symm hjournal.symm) hruns

/-- When all records have been handed out, nothing is in view, and what has not been taken is what
is behind the first failure or end. -/
theorem Follows.done {live : LiveLexer} {path : Option String} {eof : Span}
    (h : Follows live ⟨path, eof, []⟩) : live = ⟨path, live.unread, none, eof.first⟩ := by
  have hahead : live.ahead = none := by
    rcases h.pending with hpending | ⟨-, hahead⟩
    · exact absurd hpending.symm (pending_ne_nil live .gap)
    · exact hahead
  have hpath : path = live.path := h.path
  have heof : eof = live.eof := h.eof
  rcases live with ⟨livePath, input, ahead, pos⟩
  obtain rfl : ahead = none := hahead
  rw [hpath, heof]
  rfl

end LiveLexer

namespace Input

/-- The tokens of a stream are those of the bytes that count. -/
theorem tokens_ofReads (reads : List Read) :
    (ofReads reads).tokens = (ofBytes (Read.delivery reads).counted).tokens := by
  rw [tokens, tokens, Text.tokens_scan, Text.tokens_scan, text_ofReads]

/-- A stream ends where the bytes that count end. -/
theorem eof_text_ofReads (reads : List Read) :
    (ofReads reads).text.eof = (ofBytes (Read.delivery reads).counted).text.eof := by
  rw [text_ofReads]
  rfl

/-- What is found in a stream is what is found in the bytes that count and, if it fails, the
failure at its end. -/
theorem scanFindings_ofReads (reads : List Read) :
    let counted := ofBytes (Read.delivery reads).counted
    (ofReads reads).scanFindings.Perm (counted.scanFindings
      ++ cutFindings (Read.delivery reads).failure counted.text.eof.first) := by
  intro counted
  have hfailure : counted.text.failure = none := failure_text_ofBytes _
  have hcounted := counted.text.findings_scan
  have hstream := (ofReads reads).text.findings_scan
  rw [hfailure] at hcounted
  rw [text_ofReads] at hstream
  rw [scanFindings, scanFindings, text_ofReads]
  refine hstream.trans (List.perm_append_comm.trans ?_)
  exact hcounted.symm.append_right _

end Input

/-- The calls up to the end of the file leave nothing to come. -/
theorem Lexer.run_tokens (path : Option String) (input : Input) (n : Nat) :
    ((ofInput path input).1.run (input.tokens.length + 1 + n)).2 = ⟨path, input.text.eof, []⟩ := by
  rcases input.text.scan_shown with ⟨body, hscan, hshown⟩
  have hlength : body.shown.length = input.tokens.length := by
    rw [hshown, List.length_map, Input.tokens, Text.tokens_scan]
  have hrun := run_through path input.text.eof body (.eof input.text.eof)
  rw [hlength, ← hscan] at hrun
  rw [run_add, ofInput, hrun, run_done]

/-- The calls up to the end of the file of a lexer that reads on demand take no event behind the
first failure or end, and those after it take nothing. -/
theorem LiveLexer.run_tokens (path : Option String) (input : Input) (n : Nat) :
    ((ofInput path input).1.run (input.tokens.length + 1 + n)).2
      = ⟨path, input.unread, none, input.text.eof.first⟩ := by
  rcases follows_ofInput path input with ⟨hfollows, -, hunread⟩
  rcases hfollows.run (input.tokens.length + 1 + n) with ⟨-, hlast, hrest⟩
  rw [Lexer.run_tokens] at hlast
  refine hlast.done.trans ?_
  rw [hrest, hunread]

namespace Context

/-- The calls up to the end of the file go through the whole scan, and those after it hand out the
end of the file again and change nothing. -/
theorem lexMany_tokens (ctx : Context) (path : Option String) (input : Input) :
    let opened := ctx.openLexer path input
    let first := opened.context.lexMany opened.value (input.tokens.length + 1)
    first.1.map (View.map Symbol.name) = input.tokens.map .ofToken ++ [.eof input.text.eof] ∧
      first.2.diagnostics.toList
        = ctx.diagnostics.toList ++ input.scanFindings.map (Finding.diagnostic path) ∧
      ∀ n, opened.context.lexMany opened.value (input.tokens.length + 1 + n)
        = (first.1 ++ List.replicate n (.eof input.text.eof), first.2) := by
  intro opened first
  have htokens : (Piece.journal .start (pieces input.text.glyphs)).tokens = input.tokens :=
    input.text.tokens_scan.symm
  have hlength : (Piece.journal .start (pieces input.text.glyphs)).tokens.length
      = input.tokens.length := by rw [htokens]
  rcases lexMany_text ctx path input hlength with ⟨hviews, hdiagnostics⟩
  have hdone : (opened.value.run (input.tokens.length + 1)).2 = ⟨path, input.text.eof, []⟩ :=
    Lexer.run_tokens path input 0
  refine ⟨htokens ▸ hviews, hdiagnostics, ?_⟩
  intro n
  rw [lexMany_add, hdone, lexMany_done]

/-- A lexer that reads on demand hands out and reports the same call by call. -/
theorem lexMany_live (ctx : Context) (path : Option String) (input : Input) (n : Nat) :
    let opened := ctx.openLexer path input
    let live := LiveLexer.ofInput path input
    (live.1.run n).1.map Prod.fst
        = (opened.context.lexMany opened.value n).1.map (View.map Symbol.name) ∧
      (opened.context.lexMany opened.value n).2.diagnostics.toList
        = ctx.diagnostics.toList
          ++ (Journal.findings (live.2 ++ (live.1.run n).1.flatMap Prod.snd)).map
            (Finding.diagnostic path) := by
  intro opened live
  rcases LiveLexer.follows_ofInput path input with ⟨hfollows, hopening, -⟩
  rcases lexMany_run opened.context opened.value n with ⟨hrun, hreported⟩
  have hsame : (live.1.run n).1 = (opened.value.run n).1 := (hfollows.run n).1
  have hfirst : opened.context.diagnostics.toList
      = ctx.diagnostics.toList ++ (Journal.findings live.2).map (Finding.diagnostic path) :=
    hopening ▸ diagnostics_record ctx path _
  refine ⟨by rw [hsame, hrun], ?_⟩
  rw [hreported, hfirst, hsame, Journal.findings_append, List.map_append, List.append_assoc]
  rfl

/-- What is handed out for a stream is what is handed out for the bytes that count. -/
theorem lexMany_ofReads (ctx : Context) (path : Option String) (reads : List Read) (n : Nat) :
    let opened := ctx.openLexer path (.ofReads reads)
    let clean := ctx.openLexer path (.ofBytes (Read.delivery reads).counted)
    (opened.context.lexMany opened.value n).1 = (clean.context.lexMany clean.value n).1 := by
  intro opened clean
  have hshown : opened.value.pending.shown = clean.value.pending.shown := by
    have hscan : ∀ input, (ctx.openLexer path input).value.pending = input.text.scan :=
      fun _ => rfl
    rw [hscan, hscan, Text.shown_scan, Text.shown_scan, Input.text_ofReads]
    rfl
  have heof : opened.value.eof = clean.value.eof := Input.eof_text_ofReads reads
  have hinterner : opened.context.interner = clean.context.interner := rfl
  apply lexMany_congr hinterner
  rw [Lexer.views_run, Lexer.views_run, hshown, heof]

/-- A stream that does not fail is read as the bytes that it delivers. -/
theorem openLexer_ofReads (ctx : Context) (path : Option String) {reads : List Read}
    (h : (Read.delivery reads).failure = none) :
    ctx.openLexer path (.ofReads reads)
      = ctx.openLexer path (.ofBytes (Read.delivery reads).counted) := by
  have hcounted := Input.failure_text_ofBytes (Read.delivery reads).counted
  have htext : (Input.ofReads reads).text
      = (Input.ofBytes (Read.delivery reads).counted).text := by
    rw [Input.text_ofReads, h, ← hcounted]
  rw [openLexer, openLexer, Lexer.ofInput, Lexer.ofInput, htext]

/-- Only what precedes the first failure or end counts.  A stream delivers some bytes and then
fails or ends, whatever it would still deliver.  Its tokens are those of the bytes that count: of
all bytes if it ends, and of those in front of an incomplete sequence if it fails.  If it ends,
everything is as for these bytes; if it fails, the diagnostics are those for these bytes and one
more, the failure where the file ends.  From the first end of the file on, every call hands out the
same end of the file and leaves the context as it is.  A lexer that reads on demand hands out and
reports the same call by call, and then leaves the reads behind the failure or end as they are. -/
theorem lex_until_stopped (ctx : Context) (path : Option String) (reads : List Read) :
    let delivery := Read.delivery reads
    let opened := ctx.openLexer path (.ofReads reads)
    let clean := ctx.openLexer path (.ofBytes delivery.counted)
    let tokens := (Input.ofBytes delivery.counted).tokens
    let eof := clean.value.eof
    let cut := delivery.failure.toList.map fun reason =>
      (⟨⟨path, eof⟩, .readFailure reason⟩ : Diagnostic)
    let first := opened.context.lexMany opened.value (tokens.length + 1)
    let live := LiveLexer.ofInput path (.ofReads reads)
    first.1.map (View.map Symbol.name) = tokens.map .ofToken ++ [.eof eof] ∧
    (∀ n, (opened.context.lexMany opened.value n).1 = (clean.context.lexMany clean.value n).1) ∧
    (delivery.failure = none → opened = clean) ∧
    (cut.map fun d => (d.loc, d.problem.message))
      = (delivery.failure.toList.map fun reason =>
        (⟨path, eof⟩, "cannot read input: " ++ reason)) ∧
    (∀ n, (opened.context.lexMany opened.value (tokens.length + 1 + n)).2.diagnostics.toList.Perm
      ((clean.context.lexMany clean.value (tokens.length + 1 + n)).2.diagnostics.toList ++ cut)) ∧
    (∀ n, opened.context.lexMany opened.value (tokens.length + 1 + n)
      = (first.1 ++ List.replicate n (.eof eof), first.2)) ∧
    (∀ n,
      (live.1.run n).1.map Prod.fst
          = (opened.context.lexMany opened.value n).1.map (View.map Symbol.name) ∧
        (opened.context.lexMany opened.value n).2.diagnostics.toList
          = ctx.diagnostics.toList
            ++ (Journal.findings (live.2 ++ (live.1.run n).1.flatMap Prod.snd)).map
              (Finding.diagnostic path)) ∧
    ∀ n, (live.1.run (tokens.length + 1 + n)).2
      = ⟨path, .ofReads delivery.unread, none, eof.first⟩ := by
  intro delivery opened clean tokens eof cut first live
  have htokens : (Input.ofReads reads).tokens = tokens := Input.tokens_ofReads reads
  have heof : (Input.ofReads reads).text.eof = eof := Input.eof_text_ofReads reads
  rcases ctx.lexMany_tokens path (.ofReads reads) with ⟨hviews, hdiagnostics, hafter⟩
  rcases ctx.lexMany_tokens path (.ofBytes delivery.counted) with ⟨-, hdiagnostics', hafter'⟩
  rw [htokens, heof] at hviews hafter
  rw [htokens] at hdiagnostics
  refine ⟨hviews, ctx.lexMany_ofReads path reads, ctx.openLexer_ofReads path, List.map_map, ?_,
    hafter, ctx.lexMany_live path (.ofReads reads), ?_⟩
  · intro n
    have hcut : cut
        = (cutFindings delivery.failure eof.first).map (Finding.diagnostic path) := by
      simp only [cut, cutFindings]
      cases delivery.failure <;> rfl
    have hfindings := (Input.scanFindings_ofReads reads).map (Finding.diagnostic path)
    rw [List.map_append] at hfindings
    rw [hafter n, hafter' n]
    simp only [tokens, hdiagnostics, hdiagnostics', hcut]
    rw [List.append_assoc]
    exact hfindings.append_left _
  · intro n
    have hlast := LiveLexer.run_tokens path (.ofReads reads) n
    rwa [htokens, heof, Input.unread_ofReads] at hlast

end Context

end LetCalc
