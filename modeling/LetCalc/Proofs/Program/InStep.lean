import LetCalc.Proofs.Program.Calls
import LetCalc.Proofs.Program.SourceOrder

/-!
# The same parser

A parser that calls its lexer token by token and one that has gone through a scan beforehand come to
the same: they read the same programs and expressions, and they leave the same records in the same
order.  The second one files what was found among the records of the scan afterwards, right behind
the view that it concerns.  As no two views of a source stand at the same place, this is where the
first one recorded it.

Main results:

- Theorems `weave_report` and `weave_pull`: filing findings afterwards, step by step.
- Definition `LiveParser.InStep`: both parsers have the same in view, and the same is to come.
- Theorem `LiveParser.InStep.read`: they read the same, record the same, and are in step again.
- Theorem `Parser.Reachable.exists_inStep`: all states of a parser come about call by call.
- Theorem `LiveParser.program_ofInput`: a source is read the same call by call.
-/

namespace LetCalc

/-! ## Findings in their places -/

namespace Weaving

/-- Records already made stay in front. -/
theorem finish_foldl_push (scanned : Journal) (w : Weaving) :
    (scanned.foldl push w).finish
      = w.records.toList ++ (scanned.foldl push ⟨#[], w.findings⟩).finish := by
  induction scanned generalizing w with
  | nil => simp [finish]
  | cons record rest ih =>
    rw [List.foldl_cons, List.foldl_cons, ih, ih (push ⟨#[], w.findings⟩ record)]
    cases record with
    | view v => simp [push, Record.view?, file]
    | finding | fault | parsed | unbound | bound => simp [push, Record.view?]

/-- Where nothing comes into view nothing is filed. -/
theorem foldl_push_of_shown_eq_nil {before : Journal} (h : before.shown = []) (w : Weaving) :
    before.foldl push w = { w with records := w.records ++ before } := by
  induction before generalizing w with
  | nil => simp
  | cons record rest ih =>
    cases record with
    | view v => cases h
    | finding | fault | parsed | unbound | bound =>
      rw [List.foldl_cons, ih h]
      simp [push, Record.view?]

end Weaving

/-- Findings that concern what is in view are filed in front of the scan. -/
theorem weave_eq (ahead : Span) (findings : List Finding) (scanned : Journal) :
    weave ahead findings scanned
      = (findings.takeWhile (·.span = ahead)).map .finding
        ++ (scanned.foldl Weaving.push ⟨#[], findings.dropWhile (·.span = ahead)⟩).finish := by
  rw [weave, Weaving.finish_foldl_push]
  simp [Weaving.file]

theorem weave_report {ahead : Span} {f : Finding} (h : f.span = ahead) (findings : List Finding)
    (scanned : Journal) :
    weave ahead (f :: findings) scanned = .finding f :: weave ahead findings scanned := by
  rw [weave_eq, weave_eq, List.takeWhile_cons_of_pos (by simpa using h),
    List.dropWhile_cons_of_pos (by simpa using h)]
  rfl

/-- Findings that do not concern what is in view are filed behind the next view. -/
theorem weave_pull {ahead : Span} {findings : List Finding} (h : ∀ f ∈ findings, f.span ≠ ahead)
    {before : Journal} (hbefore : before.shown = []) (v : View String) (after : Journal) :
    weave ahead findings (before ++ .view v :: after)
      = before ++ .view v :: weave v.span findings after := by
  have hnone : findings.takeWhile (·.span = ahead) = [] := by
    cases findings with
    | nil => rfl
    | cons f rest => exact List.takeWhile_cons_of_neg (by simpa using h f (List.mem_cons_self ..))
  have hall : findings.dropWhile (·.span = ahead) = findings := by
    simpa [hnone] using List.takeWhile_append_dropWhile (p := (·.span = ahead)) (l := findings)
  rw [weave_eq, hnone, hall, List.foldl_append, Weaving.foldl_push_of_shown_eq_nil hbefore,
    List.foldl_cons, Weaving.finish_foldl_push, weave_eq]
  simp [Weaving.push, Record.view?, Weaving.file]

namespace Journal

/-- A journal is split behind its first view and then behind those that follow it. -/
theorem splitViews_succ (n : Nat) {before : Journal} (h : before.shown = []) (v : View String)
    (after : Journal) :
    splitViews (n + 1) (before ++ .view v :: after)
      = (before ++ .view v :: (after.splitViews n).1, (after.splitViews n).2) := by
  induction before with
  | nil => exact splitViews_cons n (.view v) after
  | cons record rest ih =>
    cases record with
    | view w => cases h
    | finding | fault | parsed | unbound | bound =>
      rw [List.cons_append, splitViews_cons]
      simp [Record.view?, ih h]

/-- The last view behind a view does not depend on what was in view before. -/
theorem lastView_append (ahead : View String) (before : Journal) (v : View String)
    (after : Journal) :
    lastView ahead (before ++ .view v :: after) = lastView v after := by
  rw [lastView, List.foldl_append]
  rfl

end Journal

/-! ## The same parser -/

namespace LiveParser

/-- Both parsers have the same in view, and the same is to come. -/
structure InStep (s : LiveParser) (parser : Parser) : Prop where
  ahead : parser.ahead = s.ahead
  follows : LiveLexer.Follows s.lexer ⟨parser.path, parser.eof, parser.pending⟩

variable {s t : LiveParser} {parser : Parser} {token : Token String} {used rest tokens : Tokens}
  {findings : List Finding}

/-- Parsers at the start of an input are in step, and have recorded the same. -/
theorem inStep_ofInput (path : Option String) (input : Input) :
    InStep (ofInput path input) (Parser.ofInput path input).1 ∧
      (ofInput path input).journal = (Parser.ofInput path input).2 := by
  rcases LiveLexer.follows_ofInput path input with ⟨hfollows, hopening, -⟩
  rcases hfollows.next with ⟨hahead, hrecords, hnext, -⟩
  have hpath : path = (Lexer.ofInput path input).1.next.2.2.path :=
    (Lexer.path_next (Lexer.ofInput path input).1).symm
  exact ⟨⟨hahead, hpath.trans hnext.path, hnext.eof, hnext.pending⟩,
    congrArg₂ (· ++ ·) hopening hrecords.symm⟩

/-- With a token in view a call of the lexer brings the next view of the scan, with the records in
front of it. -/
theorem InStep.pull (h : InStep s parser) (hshows : parser.Shows (token :: rest)) :
    ∃ (before : Journal) (v : View String) (after : Journal),
      parser.pending = before ++ .view v :: after ∧ before.shown = [] ∧
      s.ahead = .ofToken token ∧ s.pull.journal = s.journal ++ (before ++ [.view v]) ∧
      InStep s.pull { parser with ahead := v, pending := after } ∧
      Parser.Shows { parser with ahead := v, pending := after } rest := by
  rcases List.cons_eq_cons.1 hshows with ⟨hahead, hrest⟩
  rcases parser.pending.shown_cases with hnone | ⟨before, v, after, hpending, hbefore, hshown⟩
  · rw [hnone] at hrest
    simp at hrest
  · rcases h.follows.next with ⟨hview, hrecords, hnext, -⟩
    rw [hpending, Lexer.next_view _ _ hbefore] at hview hrecords hnext
    refine ⟨before, v, after, hpending, hbefore, h.ahead.symm.trans hahead, ?_, ⟨hview, hnext⟩, ?_⟩
    · exact congrArg (s.journal ++ ·) hrecords.symm
    · exact hshown.symm.trans hrest

/-- What the one parser has in view and to come, the other brings call by call. -/
theorem InStep.shows (h : InStep s parser) (hshows : parser.Shows tokens) :
    s.Shows parser.eof tokens := by
  induction tokens generalizing s parser with
  | nil => exact h.ahead.symm.trans (List.cons_eq_cons.1 hshows).1
  | cons token rest ih =>
    rcases h.pull hshows with ⟨before, v, after, -, -, hahead, -, hnext, hrest⟩
    exact ⟨hahead, ih hnext hrest⟩

/-- Moving on by some tokens brings the parsers to the same view again, and what has been recorded
on the way is the scan with what was found in its places. -/
theorem InStep.pulls (h : InStep s parser) (hpulls : Pulls s used findings t)
    (hshows : parser.Shows (used ++ rest))
    (hplaces : (Parse.places parser.eof (used ++ rest)).Nodup) :
    let split := parser.pending.splitViews used.length
    t.journal = s.journal ++ weave parser.ahead.span findings split.1 ∧
      InStep t { parser with ahead := split.1.lastView parser.ahead, pending := split.2 } ∧
      ∀ f ∈ findings, f.span ∈ Parse.places parser.eof (used ++ rest) := by
  induction hpulls generalizing parser with
  | refl s =>
    rw [List.length_nil, Journal.splitViews_zero]
    refine ⟨?_, h, ?_⟩
    · exact (List.append_nil _).symm
    · simp
  | @report s t problem used findings _ ih =>
    rcases ih ⟨h.ahead, h.follows⟩ hshows hplaces with ⟨hjournal, hstep, hmem⟩
    have hspan : s.ahead.span = parser.ahead.span := congrArg View.span h.ahead.symm
    refine ⟨?_, hstep, ?_⟩
    · rw [hjournal, weave_report hspan, report, List.append_assoc]
      rfl
    · intro f hf
      rcases List.mem_cons.1 hf with rfl | hf
      · rcases Parse.places_eq_cons parser.eof (used ++ rest) with ⟨more, hmore⟩
        rw [hmore, ← (h.shows hshows).ahead_eq]
        exact List.mem_cons_self ..
      · exact hmem f hf
  | @pull s t token used findings hahead _ ih =>
    have hspan : parser.ahead.span = token.span := by rw [h.ahead, hahead]; rfl
    rcases h.pull hshows with ⟨before, v, after, hpending, hbefore, -, hjournal, hstep, hrest⟩
    have hnodup := List.nodup_cons.1 hplaces
    rcases ih hstep hrest hnodup.2 with ⟨hjournal', hstep', hmem⟩
    -- What is found further on concerns views that are to come, and these stand elsewhere.
    have hapart : ∀ f ∈ findings, f.span ≠ parser.ahead.span := by
      intro f hf heq
      have hplace := hmem f hf
      rw [heq, hspan] at hplace
      exact hnodup.1 hplace
    rw [List.length_cons, hpending, Journal.splitViews_succ _ hbefore]
    refine ⟨?_, ?_, fun f hf => List.mem_cons_of_mem _ (hmem f hf)⟩
    · rw [hjournal', hjournal, weave_pull hapart hbefore]
      simp
    · rw [Journal.lastView_append]
      exact hstep'

/-- A reading that mirrors another hands out the same and leaves the same records behind, and then
the parsers are in step again. -/
theorem InStep.read {α : Type} (h : InStep s parser) (horderly : parser.Orderly)
    (hplaces : (Parse.places parser.eof parser.tokens).Nodup) {pulled : Pulled s α}
    {f : Span → Tokens → Parsed α}
    (hmirrors : Mirrors s parser.tokens pulled (f parser.eof parser.tokens)) :
    pulled.value = (parser.read f).1 ∧
      pulled.parser.journal = s.journal ++ (parser.read f).2.1 ∧
      InStep pulled.parser (parser.read f).2.2 := by
  rcases hmirrors.pulls with ⟨used, hused, hpulls⟩
  have hlength : parser.tokens.length - (f parser.eof parser.tokens).rest.length = used.length := by
    have htokens := congrArg List.length hused
    rw [List.length_append] at htokens
    omega
  rw [Parser.Orderly, hused] at horderly
  rw [hused] at hplaces
  rcases h.pulls hpulls horderly hplaces with ⟨hjournal, hstep, -⟩
  simp only [Parser.read, hlength]
  exact ⟨hmirrors.value, hjournal, hstep⟩

/-- An expression is read the same call by call. -/
theorem InStep.expression (h : InStep s parser) (horderly : parser.Orderly)
    (hplaces : (Parse.places parser.eof parser.tokens).Nodup) :
    s.expression.value = parser.expression.1 ∧
      s.expression.parser.journal = s.journal ++ parser.expression.2.1 ∧
      InStep s.expression.parser parser.expression.2.2 :=
  h.read horderly hplaces (f := fun eof => Parse.expression eof Parse.maxDepth .bottom .expression)
    ((reading_mirrors parser.eof).2.2 _ _ _ _ s (h.shows horderly))

/-- A program is read the same call by call. -/
theorem InStep.program (h : InStep s parser) (horderly : parser.Orderly)
    (hplaces : (Parse.places parser.eof parser.tokens).Nodup) :
    s.program.value = parser.program.1 ∧
      s.program.parser.journal = s.journal ++ parser.program.2.1 ∧
      InStep s.program.parser parser.program.2.2 := by
  have hpath : s.lexer.path = parser.path := h.follows.path.symm
  refine h.read horderly hplaces (f := Parse.program parser.path) ?_
  rw [← hpath]
  exact program_mirrors (h.shows horderly)

end LiveParser

/-! ## Sources -/

/-- What comes into view of a text stands further and further on. -/
theorem Text.places_shown (text : Text) :
    (text.scan.shown.map View.span).Pairwise fun s s' => s.first < s'.first := by
  -- A failure that cuts the text off makes no difference to what comes into view.
  have hread : text.scan.shown = (scan ⟨text.glyphs, none⟩).lexical.shown := by
    rw [Journal.shown_lexical, shown_scan, shown_scan]
    rfl
  rw [hread]
  have hnone : Text.failure ⟨text.glyphs, none⟩ = none := rfl
  exact (inOrder_scan hnone).shown

/-- The tokens of a source and the end of the file stand at places of their own. -/
theorem Input.nodup_places (input : Input) : (Parse.places input.text.eof input.tokens).Nodup := by
  rw [← input.span_shown]
  refine input.text.places_shown.imp fun hlt hsame => ?_
  rw [hsame] at hlt
  exact Pos.lt_irrefl _ hlt

theorem Parser.eof_ofInput (path : Option String) (input : Input) :
    (ofInput path input).1.eof = input.text.eof := by
  rcases ofInput_cases path input with ⟨before, v, after, -, -, hparser⟩
  rw [hparser]

/-- Readings leave tokens that stand at places of their own. -/
theorem Parser.nodup_places_read {α : Type} {parser : Parser} (h : parser.Orderly)
    (hplaces : (Parse.places parser.eof parser.tokens).Nodup) (f : Span → Tokens → Parsed α)
    (hsuffix : (f parser.eof parser.tokens).rest <:+ parser.tokens) :
    (Parse.places (parser.read f).2.2.eof (parser.read f).2.2.tokens).Nodup := by
  have heof : (parser.read f).2.2.eof = parser.eof := rfl
  rw [heof, (h.read f hsuffix).tokens_eq]
  exact hplaces.sublist ((hsuffix.sublist.map Token.span).append_right [parser.eof])

/-- In all states that can come about the tokens to be read stand at places of their own. -/
theorem Parser.Reachable.nodup_places {parser : Parser} (h : parser.Reachable) :
    (Parse.places parser.eof parser.tokens).Nodup := by
  induction h with
  | ofInput path input =>
    rw [eof_ofInput, tokens_ofInput]
    exact input.nodup_places
  | expression h ih =>
    exact nodup_places_read h.orderly ih _ (Parse.expression_rest_suffix ..)
  | program h ih =>
    refine nodup_places_read h.orderly ih _ ?_
    rw [Parse.program_rest]
    exact List.nil_suffix

theorem Text.shown_opening (text : Text) : text.opening.shown = [] := by
  unfold opening arrival
  split
  · rfl
  · rfl
  · split <;> rfl

namespace LiveParser

variable (path : Option String) (input : Input)

/-- From the start of an input the tokens of the input come into view. -/
theorem shows_ofInput : (ofInput path input).Shows input.text.eof input.tokens := by
  have horderly := Parser.orderly_ofInput path input
  rw [Parser.Orderly, Parser.tokens_ofInput] at horderly
  have hshows := (inStep_ofInput path input).1.shows horderly
  rwa [Parser.eof_ofInput] at hshows

/-- At the start of an input the first view is all that has come into view. -/
theorem shown_ofInput : (ofInput path input).journal.shown = [(ofInput path input).ahead] := by
  have hopening : (LiveLexer.ofInput path input).2 = input.text.opening :=
    (LiveLexer.follows_ofInput path input).2.1
  have hrecords := (LiveLexer.ofInput path input).1.shown_next
  rw [ofInput, Journal.shown_append, hopening, Text.shown_opening]
  exact hrecords

/-- A program is read by one call for each token of the source, each with this token in view, and
then the end of the file is in view. -/
theorem program_pulls :
    (∃ findings,
      Pulls (ofInput path input) input.tokens findings (ofInput path input).program.parser) ∧
      (ofInput path input).program.parser.ahead = .eof input.text.eof := by
  rcases (program_mirrors (shows_ofInput path input)).pulls with ⟨used, hused, hpulls⟩
  rw [Parse.program_rest, List.append_nil] at hused
  rw [← hused] at hpulls
  have hshows : Shows (ofInput path input) input.text.eof (input.tokens ++ []) := by
    rw [List.append_nil]
    exact shows_ofInput path input
  exact ⟨⟨_, hpulls⟩, (hpulls.shows hshows).ahead_eq⟩

/-- Both parsers read the same program from the start of an input, and leave the same records. -/
theorem program_ofInput :
    (ofInput path input).program.value = (Parser.ofInput path input).1.program.1 ∧
      (ofInput path input).program.parser.journal
        = (Parser.ofInput path input).2 ++ (Parser.ofInput path input).1.program.2.1 := by
  rcases inStep_ofInput path input with ⟨hstep, hjournal⟩
  have hreachable := Parser.Reachable.ofInput path input
  rcases hstep.program hreachable.orderly hreachable.nodup_places with ⟨hvalue, hrecords, -⟩
  exact ⟨hvalue, hjournal ▸ hrecords⟩

end LiveParser

/-- Whatever has been read before, a parser that calls its lexer token by token is in step. -/
theorem Parser.Reachable.exists_inStep {parser : Parser} (h : parser.Reachable) :
    ∃ s : LiveParser, s.InStep parser := by
  induction h with
  | ofInput path input => exact ⟨_, (LiveParser.inStep_ofInput path input).1⟩
  | expression h ih =>
    rcases ih with ⟨s, hs⟩
    exact ⟨_, (hs.expression h.orderly h.nodup_places).2.2⟩
  | program h ih =>
    rcases ih with ⟨s, hs⟩
    exact ⟨_, (hs.program h.orderly h.nodup_places).2.2⟩

end LetCalc
