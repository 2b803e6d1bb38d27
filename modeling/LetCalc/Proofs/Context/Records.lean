import LetCalc.Proofs.Machine.Notes
import LetCalc.Proofs.Program.InStep

/-!
# What is recorded of a source

Tokens come into view ahead of the reading, items come into view ahead of the tokens, and problems
are reported at all times in between.  However these records get mixed, nothing is lost and nothing
comes twice.  Whatever branch the reading takes, it calls the lexer once for each token that it uses
up and never for the end of the file; so what comes into view are the tokens of the text, and last,
once, the end of the file.  The other records of parsing are the reports, in the order in which they
are made, with the malformed items of the text among them, in the order of the text.  A run then
adds a record for each variable that is read before it is bound.

Main results:

- Definition `Interleaving`: two lists in one, each in its order.
- Definition `Text.malformed`: the malformed items of a text with their places.
- Theorem `Text.faults_records`: each of them is recorded once.
- Theorem `LiveParser.shown_program`: by its calls a parser brings each token into view once.
- Theorem `others_weave`: reading on adds nothing to a scan but findings.
- Theorem `Context.records_faithful`: all that is recorded when a source is parsed and run.
-/

namespace LetCalc

/-! ## Two lists in one -/

/-- The third list consists of the first two, each in its order. -/
inductive Interleaving {α : Type} : List α → List α → List α → Prop where
  | nil : Interleaving [] [] []
  | left {xs ys zs : List α} (x : α) (h : Interleaving xs ys zs) :
      Interleaving (x :: xs) ys (x :: zs)
  | right {xs ys zs : List α} (y : α) (h : Interleaving xs ys zs) :
      Interleaving xs (y :: ys) (y :: zs)

/-! ## Kinds of records -/

/-- The malformed item that came into view, with its place. -/
def Record.fault? : Record → Option (Pos × Fault)
  | fault p reason => some (p, reason)
  | _ => none

/-- The record is of one of the kinds that reading a source makes. -/
def Record.ofSource : Record → Bool
  | view _ | finding _ | fault .. => true
  | parsed .. | unbound _ | bound .. => false

namespace Journal

/-- The malformed items that came into view. -/
def faults (journal : Journal) : List (Pos × Fault) := journal.filterMap Record.fault?

/-- The records that are no findings. -/
def others (journal : Journal) : Journal := journal.filter (·.finding?.isNone)

@[simp]
theorem faults_append (j k : Journal) : faults (j ++ k) = faults j ++ faults k :=
  List.filterMap_append

@[simp]
theorem others_append (j k : Journal) : others (j ++ k) = others j ++ others k :=
  List.filter_append ..

theorem others_map_finding (findings : List Finding) :
    others (findings.map Record.finding) = [] := by
  simp [others, Record.finding?]

/-- What is taken from records that are no findings is taken from the others. -/
theorem filterMap_others {α : Type} {f : Record → Option α} (h : ∀ g, f (.finding g) = none)
    (journal : Journal) : journal.others.filterMap f = journal.filterMap f := by
  rw [others, List.filterMap_filter]
  congr 1
  funext record
  cases record with
  | finding g => exact (h g).symm
  | view | fault | parsed | unbound | bound => rfl

theorem faults_others (journal : Journal) : journal.others.faults = journal.faults :=
  filterMap_others (fun _ => rfl) journal

theorem filter_view (journal : Journal) :
    journal.filter (·.view?.isSome) = journal.shown.map .view := by
  induction journal with
  | nil => rfl
  | cons record rest ih =>
    cases record with
    | view v => exact congrArg (Record.view v :: ·) ih
    | finding | fault | parsed | unbound | bound => exact ih

/-- A journal without full detail is the one in full detail without the records that are. -/
theorem upTo_debug_eq (journal : Journal) :
    journal.upTo .debug = (journal.upTo .trace).filter (·.level ≠ .trace) := by
  apply List.filter_congr
  intro record _
  cases record <;> rfl

theorem eq_view_or_finding_of_lexical {journal : Journal} (h : journal.lexical = journal)
    {record : Record} (hrecord : record ∈ journal) :
    (∃ v, record = .view v) ∨ ∃ f, record = .finding f := by
  rw [← h] at hrecord
  have hlexical := (List.mem_filter.1 hrecord).2
  cases record with
  | view v => exact .inl ⟨v, rfl⟩
  | finding f => exact .inr ⟨f, rfl⟩
  | fault | parsed | unbound | bound => cases hlexical

theorem faults_of_lexical {journal : Journal} (h : journal.lexical = journal) :
    journal.faults = [] := by
  rw [faults, List.filterMap_eq_nil_iff]
  intro record hrecord
  rcases eq_view_or_finding_of_lexical h hrecord with ⟨v, rfl⟩ | ⟨f, rfl⟩ <;> rfl

theorem ofSource_of_lexical {journal : Journal} (h : journal.lexical = journal) :
    ∀ r ∈ journal, r.ofSource = true := by
  intro r hr
  rcases eq_view_or_finding_of_lexical h hr with ⟨v, rfl⟩ | ⟨f, rfl⟩ <;> rfl

/-- Of what reading a source records, all that is not in full detail are findings and malformed
items. -/
theorem interleaving_upTo_debug {journal : Journal} (h : ∀ r ∈ journal, r.ofSource = true) :
    Interleaving (journal.findings.map .finding) (journal.faults.map fun m => .fault m.1 m.2)
      (journal.upTo .debug) := by
  induction journal with
  | nil => exact .nil
  | cons record rest ih =>
    have hrest := ih fun r hr => h r (List.mem_cons_of_mem _ hr)
    have hrecord := h record (List.mem_cons_self ..)
    cases record with
    | view v => exact hrest
    | finding f => exact .left _ hrest
    | fault p reason => exact .right _ hrest
    | parsed | unbound | bound => cases hrecord

end Journal

/-! ## Scanning -/

/-- Why an item is malformed. -/
def Glyph.fault? : Glyph → Option Fault
  | .char _ => none
  | .malformed fault => some fault

/-- The malformed item with index `i`, with its place. -/
def faultAt (glyphs : List Glyph) (item : Glyph × Nat) : Option (Pos × Fault) :=
  item.1.fault?.map fun fault => (placeOf glyphs item.2, fault)

/-- What is recorded of the rest of a text from the time on at which it comes into view. -/
def recordedFrom (failure : Option String) (p : Pos) (phase : Phase) (glyphs : List Glyph) :
    Journal :=
  arrival failure p glyphs ++ (scanFrom failure p phase #[] glyphs).toList

theorem recordedFrom_nil (failure : Option String) (p : Pos) (phase : Phase) :
    recordedFrom failure p phase []
      = arrival failure p [] ++ (phase.complete ++ [.view (.eof (.single p))]) := by
  simp [recordedFrom, scanFrom]

theorem recordedFrom_cons (failure : Option String) (p : Pos) (phase : Phase) (g : Glyph)
    (rest : List Glyph) :
    recordedFrom failure p phase (g :: rest)
      = arrival failure p (g :: rest)
        ++ ((phase.step p g).1 ++ recordedFrom failure (p.after g) (phase.step p g).2 rest) := by
  rw [recordedFrom, scanFrom, scanFrom_acc]
  simp [recordedFrom]

theorem Phase.lexical_step (p : Pos) (g : Glyph) (phase : Phase) :
    Journal.lexical (phase.step p g).1 = (phase.step p g).1 := by
  unfold step
  split
  · rfl
  · rw [Journal.lexical_append, lexical_complete, lexical_start]

theorem faults_recordedFrom (failure : Option String) (phase : Phase) {glyphs rest : List Glyph}
    {i : Nat} (h : glyphs.drop i = rest) :
    (recordedFrom failure (placeOf glyphs i) phase rest).faults
      = (rest.zipIdx i).filterMap (faultAt glyphs) := by
  induction rest generalizing i phase with
  | nil =>
    have harrival : (arrival failure (placeOf glyphs i) []).faults = [] := by
      cases failure <;> rfl
    rw [recordedFrom_nil, Journal.faults_append, Journal.faults_append, harrival,
      Journal.faults_of_lexical phase.lexical_complete]
    rfl
  | cons g rest ih =>
    have hitem : glyphs.drop i = [g] ++ rest := h
    have hplace : (placeOf glyphs i).after g = placeOf glyphs (i + 1) := (placeOf_add hitem).symm
    have hdrop : glyphs.drop (i + 1) = rest := by
      rw [← List.drop_drop, h]
      rfl
    rw [recordedFrom_cons, Journal.faults_append, Journal.faults_append,
      Journal.faults_of_lexical (phase.lexical_step _ g), List.nil_append, hplace, ih _ hdrop,
      List.zipIdx_cons, List.filterMap_cons]
    cases g <;> rfl

theorem ofSource_arrival (failure : Option String) (p : Pos) (glyphs : List Glyph) :
    ∀ r ∈ arrival failure p glyphs, r.ofSource = true := by
  intro r hr
  unfold arrival at hr
  split at hr
  · cases hr
  · cases List.mem_singleton.1 hr
    rfl
  · split at hr
    · cases List.mem_singleton.1 hr
      rfl
    · cases hr

theorem ofSource_recordedFrom (failure : Option String) (p : Pos) (phase : Phase)
    (glyphs : List Glyph) : ∀ r ∈ recordedFrom failure p phase glyphs, r.ofSource = true := by
  induction glyphs generalizing p phase with
  | nil =>
    rw [recordedFrom_nil]
    intro r hr
    rcases List.mem_append.1 hr with hr | hr
    · exact ofSource_arrival failure p [] r hr
    rcases List.mem_append.1 hr with hr | hr
    · exact Journal.ofSource_of_lexical phase.lexical_complete r hr
    · cases List.mem_singleton.1 hr
      rfl
  | cons g rest ih =>
    rw [recordedFrom_cons]
    intro r hr
    rcases List.mem_append.1 hr with hr | hr
    · exact ofSource_arrival failure p _ r hr
    rcases List.mem_append.1 hr with hr | hr
    · exact Journal.ofSource_of_lexical (phase.lexical_step p g) r hr
    · exact ih _ _ r hr

namespace Text

/-- What is recorded of a text, from the time on at which it comes into view. -/
def records (text : Text) : Journal := text.opening ++ text.scan

/-- The malformed items of a text with their places. -/
def malformed (text : Text) : List (Pos × Fault) :=
  text.glyphs.zipIdx.filterMap (faultAt text.glyphs)

/-- The tokens of a text at their places, and last the end of the file. -/
def views (text : Text) : List (View String) :=
  (Piece.covered 0 (pieces text.glyphs)).map (fun t => .ofToken (t.token text.glyphs))
    ++ [.eof (.single (placeOf text.glyphs text.glyphs.length))]

/-- Each malformed item of a text is recorded once, in the order of the text. -/
theorem faults_records (text : Text) : text.records.faults = text.malformed :=
  faults_recordedFrom text.failure .gap (i := 0) rfl

theorem ofSource_records (text : Text) : ∀ r ∈ text.records, r.ofSource = true :=
  ofSource_recordedFrom text.failure .start .gap text.glyphs

theorem eof_eq (text : Text) :
    text.eof = .single (placeOf text.glyphs text.glyphs.length) := by
  rw [placeOf_eq_afterAll, List.take_length]
  rfl

/-- The tokens of a text and the end of the file, at their places. -/
theorem views_eq (text : Text) :
    text.views = text.scan.tokens.map .ofToken ++ [.eof text.eof] := by
  have htokens : (Piece.journal .start (pieces text.glyphs)).tokens
      = (Piece.covered 0 (pieces text.glyphs)).map (Covered.token text.glyphs) :=
    Piece.tokens_journal (i := 0) (fun _ => Piece.glyphs_ne_nil) (flatMap_pieces text.glyphs).symm
  rw [tokens_scan, htokens, List.map_map, eof_eq]
  rfl

end Text

/-! ## Reading -/

namespace Weaving

theorem others_file (w : Weaving) (span : Span) :
    Journal.others (w.file span).records.toList = Journal.others w.records.toList := by
  rw [file, Array.toList_appendList, Journal.others_append, Journal.others_map_finding,
    List.append_nil]

theorem others_push (w : Weaving) (record : Record) :
    Journal.others (w.push record).records.toList
      = Journal.others w.records.toList ++ Journal.others [record] := by
  rw [← Journal.others_append, ← Array.toList_push]
  cases record with
  | view v => exact others_file _ v.span
  | finding | fault | parsed | unbound | bound => rfl

theorem others_finish (scanned : Journal) (w : Weaving) :
    Journal.others (scanned.foldl push w).finish
      = Journal.others w.records.toList ++ scanned.others := by
  induction scanned generalizing w with
  | nil =>
    rw [List.foldl_nil, finish, Journal.others_append, Journal.others_map_finding]
    rfl
  | cons record rest ih =>
    rw [List.foldl_cons, ih, others_push, List.append_assoc, ← Journal.others_append]
    rfl

end Weaving

/-- Reading on adds nothing to a scan but findings. -/
theorem others_weave (ahead : Span) (findings : List Finding) (scanned : Journal) :
    (weave ahead findings scanned).others = scanned.others := by
  rw [weave, Weaving.others_finish, Weaving.others_file]
  rfl

/-- Running brings no token into view. -/
theorem Machine.shown_journal {ι : Type} [DecidableEq ι] [Hashable ι] (machine : Machine ι)
    (name : ι → String) : (machine.journal name).shown = [] := by
  rw [Journal.shown, List.filterMap_eq_nil_iff]
  intro record hrecord
  rcases List.mem_map.1 hrecord with ⟨note, -, rfl⟩
  cases note <;> rfl

namespace LiveParser

variable (path : Option String) (input : Input)

/-- By its calls of the lexer a parser brings each token of a source into view once, in the order of
the source, and last the end of the file. -/
theorem shown_program :
    (ofInput path input).program.parser.journal.shown = input.text.views := by
  rcases program_pulls path input with ⟨⟨findings, hpulls⟩, hahead⟩
  have hfirst : (ofInput path input).journal.shown = [] ++ [(ofInput path input).ahead] :=
    shown_ofInput path input
  rw [hpulls.shown hfirst, hahead, Text.views_eq]
  rfl

/-- Apart from findings a parser leaves the records of the text. -/
theorem others_program :
    (ofInput path input).program.parser.journal.others = input.text.records.others := by
  rcases Parser.ofInput_cases path input with ⟨before, v, after, hscan, -, hparser⟩
  have hprogram := (Parser.program_ofInput path input).2
  have hview : before ++ .view v :: after = before ++ [.view v] ++ after := by simp
  rw [(program_ofInput path input).2, hprogram, Journal.others_append, others_weave, hparser,
    Text.records, hscan, hview]
  simp only [Journal.others_append, List.append_assoc]

/-- Besides what comes into view a parser records findings and malformed items. -/
theorem interleaving_program :
    let journal := (ofInput path input).program.parser.journal
    Interleaving (journal.findings.map .finding)
      (input.text.malformed.map fun m => .fault m.1 m.2) (journal.upTo .debug) := by
  intro journal
  have hothers : journal.others = input.text.records.others := others_program path input
  have hsource : ∀ r ∈ journal, r.ofSource = true := by
    intro r hr
    cases hfinding : r.finding? with
    | some f => cases r <;> first | rfl | cases hfinding
    | none =>
      have hother : r ∈ journal.others := List.mem_filter.2 ⟨hr, by rw [hfinding]; rfl⟩
      rw [hothers] at hother
      exact input.text.ofSource_records r (List.mem_filter.1 hother).1
  have hfaults : journal.faults = input.text.malformed := by
    rw [← Journal.faults_others, hothers, Journal.faults_others, Text.faults_records]
  rw [← hfaults]
  exact Journal.interleaving_upTo_debug hsource

end LiveParser

namespace Context

/-- Parsing records what a parser records that calls its lexer token by token, and last the numbers
of statements and of errors. -/
theorem journal_parse_live (ctx : Context) (path : Option String) (input : Input) :
    (ctx.parse path input).journal
      = (LiveParser.ofInput path input).program.parser.journal
        ++ [.parsed (ctx.parse path input).value.stmts.length
          (ctx.parse path input).context.errorCount] := by
  rw [(LiveParser.program_ofInput path input).2, List.append_assoc]
  rfl

/-- What is recorded when a source is parsed and run.  A parser that calls its lexer token by token
reads the program that is parsed.  It gets from the start of the source to its end by one call for
each token of the source, with this token in view, and then the end of the file is in view; so with
the first call the lexer has been called once for each token and once for the end of the file.  What
it records of this are the tokens of the text as they come into view, each of them once and in the
order of the text, and last, once, the end of the file.

The log is what this parser records, then the numbers of statements and of errors, and then what the
run records.  In front of the numbers the records that are not in full detail are the reports of the
source, in their words and in their order, among the malformed items of the text in theirs.  Behind
them they are the variables that the executed statements read before they bind them, each of them
once.  What is recorded without full detail is what is recorded in full detail without the records
that are. -/
theorem records_faithful (ctx : Context) (path : Option String) (input : Input) (sink : Sink) :
    let run := ctx.run path input sink
    let executed := (Machine.start sink).executed run.program.stmts
    let start := LiveParser.ofInput path input
    let parsed := start.program
    ∃ (running : Journal) (found findings : List Finding) (unbound : List Symbol),
      parsed.value = run.program.map Symbol.name ∧
      input.text.views = input.tokens.map .ofToken ++ [.eof input.text.eof] ∧
      start.Pulls input.tokens found parsed.parser ∧
      parsed.parser.ahead = .eof input.text.eof ∧
      parsed.parser.lexer
        = ((LiveLexer.ofInput path input).1.run (input.tokens.length + 1)).2 ∧
      parsed.parser.journal.filter (·.view?.isSome) = input.text.views.map .view ∧
      run.journal = parsed.parser.journal
        ++ .parsed run.program.stmts.length run.context.errorCount :: running ∧
      run.journal.filter (·.view?.isSome) = input.text.views.map .view ∧
      Interleaving (findings.map .finding) (input.text.malformed.map fun m => .fault m.1 m.2)
        (parsed.parser.journal.upTo .debug) ∧
      findings.map (fun f => Record.message path (.finding f))
        = (ctx.reported path input).map Diagnostic.text ∧
      run.context.errorCount = ctx.errorCount + (ctx.reported path input).length ∧
      running.upTo .debug = unbound.map (fun x => .unbound x.name) ∧
      unbound.Nodup ∧
      (∀ x, x ∈ unbound ↔ ReadUnbound (executed.flatMap Stmt.accesses) x) ∧
      (∃ skipped, run.program.stmts = executed ++ skipped) ∧
      (run.refusal = none → executed = run.program.stmts) ∧
      run.journal.upTo .debug = (run.journal.upTo .trace).filter (·.level ≠ .trace) := by
  intro run executed start parsed
  rcases LiveParser.program_pulls path input with ⟨⟨found, hpulls⟩, hahead⟩
  have hjournal := ctx.journal_parse_live path input
  have hreflects := Machine.run_reflects run.program.stmts sink
  have hshown : parsed.parser.journal.shown = input.text.views :=
    LiveParser.shown_program path input
  have hrun : run.journal
      = parsed.parser.journal ++ .parsed run.program.stmts.length run.context.errorCount
        :: run.machine.journal Symbol.name := by
    have hparsed : run.journal
        = (ctx.parse path input).journal ++ run.machine.journal Symbol.name := rfl
    rw [hparsed, hjournal, List.append_assoc]
    rfl
  refine ⟨run.machine.journal Symbol.name, found, parsed.parser.journal.findings,
    run.machine.store.unbound, ?value, input.text.views_eq, hpulls, hahead, hpulls.lexer_eq,
    ?shown, hrun, ?views, LiveParser.interleaving_program path input, ?reports,
    ctx.errorCount_parse path input, run.machine.upTo_debug_journal Symbol.name, hreflects.nodup,
    hreflects.mem_unbound, Machine.executed_append run.program.stmts _,
    Machine.executed_eq run.program.stmts, ?levels⟩
  case value =>
    rw [(LiveParser.program_ofInput path input).1, (Parser.program_ofInput path input).1]
    exact (ctx.map_name_parse path input).symm
  case shown => rw [Journal.filter_view, hshown]
  case views =>
    rw [Journal.filter_view, hrun, Journal.shown_append, hshown,
      Journal.shown_cons_none rfl, Machine.shown_journal, List.append_nil]
  case reports =>
    have hsummary : Journal.findings [.parsed (ctx.parse path input).value.stmts.length
        (ctx.parse path input).context.errorCount] = [] := rfl
    rw [reported_eq, hjournal, Journal.findings_append, hsummary, List.append_nil, List.map_map]
    rfl
  case levels => exact Journal.upTo_debug_eq run.journal

end Context

end LetCalc
