import LetCalc.Proofs.Program.LiveParser

/-!
# One call for each token

On every branch of the reading, those that give up an expression, skip a token or find the end of
the file included, a parser with a lexer behind it calls the lexer once for each token that it uses
up, with this token in view.  It never uses up the end of the file.  So it hands out what reading
the list of all tokens hands out, and each view is recorded once.

Main results:

- Definition `LiveParser.Pulls`: the calls and the reports on the way from one parser to another.
- Theorem `LiveParser.reading_mirrors`: on every branch of an expression one call for each token.
- Theorem `LiveParser.stmts_mirrors`: and so on every branch of a source.
- Theorem `LiveParser.Pulls.shown`: each call brings one view into the records.
-/

namespace LetCalc

/-! ## What comes into view -/

/-- With `ahead` in view the tokens come into view one call after the other, and then the end of the
file. -/
def LiveLexer.Brings (eof : Span) (lexer : LiveLexer) (ahead : View String) : Tokens → Prop
  | [] => ahead = .eof eof
  | token :: rest =>
    ahead = .ofToken token ∧ LiveLexer.Brings eof lexer.next.2.2 lexer.next.1 rest

namespace LiveParser

/-- What is in view and to come are these tokens, and last the end of the file. -/
def Shows (s : LiveParser) (eof : Span) (tokens : Tokens) : Prop :=
  s.lexer.Brings eof s.ahead tokens

/-- The way from one parser to another: the tokens that are used up, with one call of the lexer for
each of them, and what is reported at the tokens in view. -/
inductive Pulls : LiveParser → Tokens → List Finding → LiveParser → Prop where
  | refl (s : LiveParser) : Pulls s [] [] s
  | pull {s t : LiveParser} {token : Token String} {used : Tokens} {findings : List Finding}
      (hahead : s.ahead = .ofToken token) (h : Pulls s.pull used findings t) :
      Pulls s (token :: used) findings t
  | report {s t : LiveParser} {problem : Problem} {used : Tokens} {findings : List Finding}
      (h : Pulls (s.report problem) used findings t) :
      Pulls s used (⟨s.ahead.span, problem⟩ :: findings) t

variable {eof : Span} {s t : LiveParser} {token : Token String} {used rest tokens : Tokens}
  {findings : List Finding}

theorem Shows.ahead_eq (h : s.Shows eof tokens) : s.ahead = tokens.view eof := by
  cases tokens with
  | nil => exact h
  | cons token rest => exact h.1

theorem Shows.lead_eq (h : s.Shows eof (token :: rest)) : s.ahead.lead = token.kind.lead :=
  congrArg View.lead h.ahead_eq

theorem Shows.binOp?_eq (h : s.Shows eof (token :: rest)) : s.ahead.binOp? = token.kind.binOp? :=
  congrArg View.binOp? h.ahead_eq

theorem Shows.pull (h : s.Shows eof (token :: rest)) : s.pull.Shows eof rest := h.2

theorem Shows.report (h : s.Shows eof tokens) (problem : Problem) :
    (s.report problem).Shows eof tokens := h

namespace Pulls

/-- One way after another. -/
theorem trans {u : LiveParser} {used' : Tokens} {findings' : List Finding}
    (h : Pulls s used findings t) (h' : Pulls t used' findings' u) :
    Pulls s (used ++ used') (findings ++ findings') u := by
  induction h with
  | refl => exact h'
  | pull hahead _ ih => exact .pull hahead (ih h')
  | report _ ih => exact .report (ih h')

/-- What is used up does not come into view again, and all that follows it does. -/
theorem shows (h : Pulls s used findings t) (hshows : s.Shows eof (used ++ rest)) :
    t.Shows eof rest := by
  induction h with
  | refl => exact hshows
  | pull _ _ ih => exact ih hshows.pull
  | report _ ih => exact ih (hshows.report _)

end Pulls

/-- A reading with a lexer behind it comes to what a reading of the list of tokens comes to, and
calls the lexer once for each token that this takes from the list. -/
structure Mirrors {α : Type} (s : LiveParser) (tokens : Tokens) (pulled : Pulled s α)
    (parsed : Parsed α) : Prop where
  value : pulled.value = parsed.value
  pulls : ∃ used, tokens = used ++ parsed.rest ∧ Pulls s used parsed.findings pulled.parser

namespace Mirrors

variable {α β : Type} {parsed : Parsed α}

theorem done (s : LiveParser) (tokens : Tokens) (x : α) :
    Mirrors s tokens (.done s x) ⟨x, tokens, []⟩ :=
  ⟨rfl, [], rfl, .refl s⟩

/-- A reading that goes on with the next token uses up the one in view. -/
theorem afterPull {pulled : Pulled s.pull α} (hahead : s.ahead = .ofToken token)
    (h : Mirrors s.pull rest pulled parsed) :
    Mirrors s (token :: rest) pulled.afterPull parsed := by
  rcases h.pulls with ⟨used, rfl, hpulls⟩
  exact ⟨h.value, token :: used, rfl, .pull hahead hpulls⟩

/-- A reading that goes on after a report has this report in front. -/
theorem afterReport {problem : Problem} {pulled : Pulled (s.report problem) α}
    (h : Mirrors (s.report problem) tokens pulled parsed) :
    Mirrors s tokens pulled.afterReport
      ⟨parsed.value, parsed.rest, ⟨s.ahead.span, problem⟩ :: parsed.findings⟩ := by
  rcases h.pulls with ⟨used, hused, hpulls⟩
  exact ⟨h.value, used, hused, .report hpulls⟩

/-- What is made of the value makes no difference. -/
theorem map {pulled : Pulled s α} (f : α → β) (h : Mirrors s tokens pulled parsed) :
    Mirrors s tokens (pulled.andThen fun x t => .done t (f x))
      ⟨f parsed.value, parsed.rest, parsed.findings⟩ :=
  ⟨congrArg f h.value, h.pulls⟩

/-- Two readings in a row. -/
theorem andThen {pulled : Pulled s α} {next : α → (t : LiveParser) → Pulled t β}
    {next' : α → Tokens → Parsed β} (hshows : s.Shows eof tokens)
    (h : Mirrors s tokens pulled parsed)
    (hnext : ∀ t : LiveParser, t.Shows eof parsed.rest →
      Mirrors t parsed.rest (next parsed.value t) (next' parsed.value parsed.rest)) :
    Mirrors s tokens (pulled.andThen next) (parsed.andThen next') := by
  rcases h.pulls with ⟨used, hused, hpulls⟩
  have hsecond : Mirrors pulled.parser parsed.rest (next pulled.value pulled.parser)
      (next' parsed.value parsed.rest) := by
    rw [h.value]
    exact hnext pulled.parser (hpulls.shows (hused ▸ hshows))
  rcases hsecond.pulls with ⟨used', hused', hpulls'⟩
  refine ⟨hsecond.value, used ++ used', ?_, hpulls.trans hpulls'⟩
  rw [hused, hused', List.append_assoc]
  rfl

end Mirrors

/-! ## Branch by branch -/

theorem expect_mirrors (kind : Kind String) (goal : Goal) (h : s.Shows eof tokens) :
    Mirrors s tokens (s.expect kind goal) (Parse.expect eof kind goal tokens) := by
  have hahead := h.ahead_eq
  cases tokens with
  | nil =>
    have hkind : s.ahead.kind ≠ some kind := by
      rw [hahead]
      exact Option.some_ne_none kind ∘ Eq.symm
    rw [expect, Parse.expect, Parse.unexpected, ← hahead, if_neg hkind]
    exact .afterReport (.done _ [] ())
  | cons token rest =>
    rw [expect, Parse.expect, Parse.unexpected, ← hahead]
    have hkind : s.ahead.kind = some kind ↔ token.kind = kind := by
      rw [hahead]
      exact Option.some_inj
    by_cases heq : token.kind = kind
    · rw [if_pos (hkind.2 heq), if_pos heq]
      exact .afterPull hahead (.done _ rest ())
    · rw [if_neg (mt hkind.1 heq), if_neg heq]
      exact .afterReport (.done _ _ ())

theorem skipExpression_mirrors (depth : Nat) (h : s.Shows eof tokens) :
    Mirrors s tokens (s.skipExpression depth) ⟨(), Parse.skipExpression depth tokens, []⟩ := by
  induction tokens generalizing s depth with
  | nil =>
    have hkind : s.ahead.kind = none := congrArg View.kind h.ahead_eq
    rw [skipExpression]
    split
    · exact .done s [] ()
    · next kind hsome => cases hkind.symm.trans hsome
  | cons token rest ih =>
    rcases token with ⟨kind, span⟩
    have hahead : s.ahead = .ofToken ⟨kind, span⟩ := h.ahead_eq
    have hkind : s.ahead.kind = some kind := congrArg View.kind hahead
    have hgo : ∀ depth, Mirrors s (⟨kind, span⟩ :: rest) (s.pull.skipExpression depth).afterPull
        ⟨(), Parse.skipExpression depth rest, []⟩ :=
      fun depth => .afterPull hahead (ih depth h.pull)
    rw [skipExpression]
    split
    · next hnone => cases hkind.symm.trans hnone
    · next kind' hsome =>
      obtain rfl : kind = kind' := Option.some.inj (hkind.symm.trans hsome)
      cases kind with
      | semicolon => exact .done s _ ()
      | rightParen =>
        cases depth with
        | zero => exact .done s _ ()
        | succ depth => exact hgo depth
      | leftParen => exact hgo (depth + 1)
      | _ => exact hgo depth

theorem giveUp_mirrors (h : s.Shows eof tokens) :
    Mirrors s tokens s.giveUp (Parse.giveUp eof tokens) := by
  rw [giveUp, Parse.giveUp, ← h.ahead_eq]
  have hskip := skipExpression_mirrors 0 (h.report .tooDeep)
  exact .afterReport (hskip.map fun _ => Expr.hole s.ahead.span)

/-- On every branch of an expression the lexer is called once for each token that is used up. -/
theorem reading_mirrors (eof : Span) :
    (∀ room goal tokens (s : LiveParser), s.Shows eof tokens →
      Mirrors s tokens (operand room goal s) (Parse.operand eof room goal tokens)) ∧
    (∀ room floor left tokens (s : LiveParser), s.Shows eof tokens →
      Mirrors s tokens (fold room floor left s) (Parse.fold eof room floor left tokens)) ∧
    ∀ room floor goal tokens (s : LiveParser), s.Shows eof tokens →
      Mirrors s tokens (expressionWithin room floor goal s)
        (Parse.expression eof room floor goal tokens) := by
  refine Parse.reading_induction eof
    (P := fun room goal tokens parsed => ∀ s : LiveParser, s.Shows eof tokens →
      Mirrors s tokens (operand room goal s) parsed)
    (Q := fun room floor left tokens parsed => ∀ s : LiveParser, s.Shows eof tokens →
      Mirrors s tokens (fold room floor left s) parsed)
    (R := fun room floor goal tokens parsed => ∀ s : LiveParser, s.Shows eof tokens →
      Mirrors s tokens (expressionWithin room floor goal s) parsed)
    ?nothing ?number ?name ?sign ?group ?full ?stop ?operator ?fullFold ?whole
  case nothing =>
    intro room goal tokens hnone s hshows
    have hlead : s.ahead.lead = .none := by
      rw [hshows.ahead_eq]
      cases tokens with
      | nil => rfl
      | cons token rest => exact hnone token rfl
    rw [operand_none hlead, Parse.unexpected, ← hshows.ahead_eq]
    exact .afterReport (.done _ tokens _)
  case number =>
    intro room goal token v rest hlead s hshows
    rw [operand_number (hshows.lead_eq.trans hlead), hshows.1]
    exact .afterPull hshows.1 (.done _ rest _)
  case name =>
    intro room goal token x rest hlead s hshows
    rw [operand_name (hshows.lead_eq.trans hlead), hshows.1]
    exact .afterPull hshows.1 (.done _ rest _)
  case sign =>
    intro room goal token op rest hlead ih s hshows
    rw [operand_sign (hshows.lead_eq.trans hlead), hshows.1]
    exact .afterPull hshows.1 (.andThen hshows.pull (ih s.pull hshows.pull) fun t _ => .done t _ _)
  case group =>
    intro room goal token rest hlead ih s hshows
    rw [operand_group (hshows.lead_eq.trans hlead)]
    refine .afterPull hshows.1 (.andThen hshows.pull (ih s.pull hshows.pull) fun t ht => ?_)
    exact .andThen ht (expect_mirrors .rightParen .group ht) fun t _ => .done t _ _
  case full =>
    intro goal token rest hlead s hshows
    rw [operand_full (hshows.lead_eq ▸ hlead)]
    exact giveUp_mirrors hshows
  case stop =>
    intro room floor left tokens hstops s hshows
    rw [fold_stop]
    · exact .done s tokens left
    · intro op hop
      rw [hshows.ahead_eq] at hop
      cases tokens with
      | nil => cases hop
      | cons token rest => exact hstops token rfl op hop
  case operator =>
    intro room floor left token op rest hop hprec ihRight ihFold s hshows
    rw [fold_operator left (hshows.binOp?_eq.trans hop) hprec]
    refine .afterPull hshows.1 ?_
    exact .andThen hshows.pull (ihRight s.pull hshows.pull) fun t ht => ihFold _ _ t ht
  case fullFold =>
    intro floor left token op rest hop hprec s hshows
    rw [fold_full left (hshows.binOp?_eq.trans hop) hprec]
    exact giveUp_mirrors hshows
  case whole =>
    intro room floor goal tokens ihOperand ihFold s hshows
    exact .andThen hshows (ihOperand s hshows) fun t ht => ihFold _ _ t ht

theorem boundName_mirrors (h : s.Shows eof tokens) :
    Mirrors s tokens s.boundName (Parse.boundName eof tokens) := by
  cases tokens with
  | nil =>
    have hlead : s.ahead.lead = .none := congrArg View.lead h.ahead_eq
    rw [boundName, hlead, Parse.boundName, Parse.unexpected, ← h.ahead_eq]
    exact .afterReport (.done _ [] _)
  | cons token rest =>
    rw [boundName, h.lead_eq, Parse.boundName, Parse.unexpected, ← h.ahead_eq]
    cases token.kind.lead with
    | name x => exact .afterPull h.1 (.done _ rest x)
    | _ => exact .afterReport (.done _ _ _)

theorem stmt_mirrors (word : Kind.Keyword) (span : Span) (h : s.Shows eof tokens) :
    Mirrors s tokens (s.stmt word span) (Parse.stmt eof word span tokens) := by
  have hexpression := (reading_mirrors eof).2.2
  cases word with
  | bind =>
    rw [stmt, Parse.stmt, Parse.bindStmt]
    refine .andThen h (boundName_mirrors h) fun t ht => ?_
    refine .andThen ht (expect_mirrors .equal .letStatement ht) fun t ht => ?_
    refine .andThen ht (hexpression _ _ _ _ t ht) fun t ht => ?_
    exact .andThen ht (expect_mirrors .semicolon .letStatement ht) fun t _ => .done t _ _
  | print =>
    rw [stmt, Parse.stmt, Parse.printStmt]
    refine .andThen h (hexpression _ _ _ _ s h) fun t ht => ?_
    exact .andThen ht (expect_mirrors .semicolon .printStatement ht) fun t _ => .done t _ _

/-- On every branch of a source, a skipped token included, the lexer is called once for each token
that is used up. -/
theorem stmts_mirrors (h : s.Shows eof tokens) :
    Mirrors s tokens s.stmts (Parse.stmts eof tokens) := by
  refine Parse.stmts_induction eof
    (P := fun tokens parsed => ∀ s : LiveParser, s.Shows eof tokens →
      Mirrors s tokens s.stmts parsed)
    ?nil ?keyword ?skip tokens s h
  case nil =>
    intro s hshows
    rw [stmts_nil (congrArg View.kind hshows.ahead_eq)]
    exact .done s [] []
  case keyword =>
    intro token word rest hword ih s hshows
    rw [stmts_keyword (congrArg View.kind hshows.ahead_eq) hword, hshows.ahead_eq]
    refine .afterPull hshows.1 (.andThen hshows.pull (stmt_mirrors word _ hshows.pull) ?_)
    exact fun t ht => .andThen ht (ih t ht) fun t _ => .done t _ _
  case skip =>
    intro token rest hword ih s hshows
    rw [stmts_skip (congrArg View.kind hshows.ahead_eq) hword, Parse.unexpected, ← hshows.ahead_eq]
    exact .afterReport (.afterPull hshows.1 (ih _ hshows.pull))

theorem program_mirrors (h : s.Shows eof tokens) :
    Mirrors s tokens s.program (Parse.program s.lexer.path eof tokens) := by
  rw [Parse.program_eq, ← h.ahead_eq]
  exact (stmts_mirrors h).map (Program.mk s.lexer.path s.ahead.span)

/-! ## Calls and records -/

theorem shown_pull (s : LiveParser) : s.pull.journal.shown = s.journal.shown ++ [s.pull.ahead] := by
  have hrecords : s.lexer.next.2.1.shown = [s.pull.ahead] := s.lexer.shown_next
  rw [← hrecords]
  exact Journal.shown_append ..

theorem shown_report (s : LiveParser) (problem : Problem) :
    (s.report problem).journal.shown = s.journal.shown :=
  (Journal.shown_append ..).trans (List.append_nil _)

/-- What is used up was in view once, and so is what is in view now. -/
theorem Pulls.shown {seen : List (View String)} (h : Pulls s used findings t)
    (hseen : s.journal.shown = seen ++ [s.ahead]) :
    t.journal.shown = seen ++ used.map .ofToken ++ [t.ahead] := by
  induction h generalizing seen with
  | refl => simpa using hseen
  | @pull s t token used findings hahead _ ih =>
    have hfirst : s.pull.journal.shown = (seen ++ [.ofToken token]) ++ [s.pull.ahead] := by
      rw [shown_pull, hseen, hahead]
    rw [ih hfirst]
    simp
  | report _ ih => exact ih ((shown_report ..).trans hseen)

/-- The lexer has been called once for each token that is used up. -/
theorem Pulls.lexer_eq (h : Pulls s used findings t) :
    t.lexer = (s.lexer.run used.length).2 := by
  induction h with
  | refl => rfl
  | pull _ _ ih => exact ih
  | report _ ih => exact ih

end LiveParser

end LetCalc
