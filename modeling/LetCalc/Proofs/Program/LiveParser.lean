import LetCalc.Proofs.Token.OnDemand

/-!
# A parser with a lexer behind it

A parser need not have the tokens of its source before it.  This one has one token in view and a
lexer behind it that reads its source on demand.  It calls the lexer where it uses up the token in
view, and it reports at the token in view.

Reading ends because a call that hands out a token leaves less of the source.  So the result of a
reading carries the fact that no more is left to read than before.

Main results:

- Theorem `LiveLexer.size_next_le`: a call that hands out a token leaves less to take.
- Definition `Pulled`: what a reading comes to.
- Definitions `LiveParser.expression` and `LiveParser.program`: reading with a lexer behind.
- Theorems `LiveParser.operand_sign`, `LiveParser.fold_operator` and `LiveParser.stmts_skip`: one
  equation for each branch of the reading.
-/

namespace LetCalc

/-! ## What is left to read -/

namespace LiveLexer

/-- Completing a phase records one token at most. -/
theorem length_shown_complete_le (phase : Phase) : phase.complete.shown.length ≤ 1 := by
  rcases complete_cases phase with hnone | ⟨before, v, hcomplete, hbefore⟩
  · simp [hnone]
  · rw [hcomplete, Journal.shown_append, hbefore]
    exact Nat.le_refl 1

/-- Scanning up to a token uses up a glyph, if the phase had not a token in it before. -/
theorem size_scan_le (lexer : LiveLexer) (phase : Phase) :
    (lexer.scan phase).2.2.size + (lexer.scan phase).1.kind.toList.length
      ≤ lexer.size + phase.complete.shown.length := by
  have hkind : ∀ v : View String, v.kind.toList.length ≤ 1 := by
    intro v
    cases v.kind with
    | none => exact Nat.zero_le 1
    | some kind => exact Nat.le_refl 1
  fun_induction scan lexer phase with
  | case1 lexer phase g hahead taken phase' hextend more ih =>
    have hless : taken.1.size < lexer.size := size_take_lt hahead
    have hone := length_shown_complete_le phase'
    exact ih.trans (by omega)
  | case2 lexer phase g hahead hextend view views hshown =>
    rw [hshown]
    exact Nat.add_le_add_left ((hkind view).trans (Nat.le_add_left 1 _)) _
  | case3 lexer phase g hahead taken hextend hshown started more ih =>
    have hless : taken.1.size < lexer.size := size_take_lt hahead
    have hone := length_shown_complete_le started.2
    exact ih.trans (by omega)
  | case4 lexer phase hahead view views hshown =>
    rw [hshown]
    exact Nat.add_le_add_left ((hkind view).trans (Nat.le_add_left 1 _)) _
  | case5 lexer phase hahead hshown => exact Nat.le_add_right _ _

/-- A call that hands out a token leaves less to take, and no call leaves more. -/
theorem size_next_le (lexer : LiveLexer) :
    lexer.next.2.2.size + lexer.next.1.kind.toList.length ≤ lexer.size :=
  lexer.size_scan_le .gap

/-- A call records what it hands out, and nothing else that comes into view. -/
theorem shown_next (lexer : LiveLexer) : lexer.next.2.1.shown = [lexer.next.1] := by
  rcases (lexer.scan_spec .gap).journal with ⟨before, hjournal, hbefore⟩
  rw [next, hjournal, Journal.shown_append, hbefore]
  rfl

end LiveLexer

/-! ## A parser with a lexer behind it -/

/-- What is in view, with the lexer behind it and all that has been recorded so far. -/
structure LiveParser where
  lexer : LiveLexer
  ahead : View String
  journal : Journal

namespace LiveParser

/-- A parser at the start of an input.  The lexer has been called once. -/
def ofInput (path : Option String) (input : Input) : LiveParser :=
  let (lexer, opening) := LiveLexer.ofInput path input
  let (ahead, records, lexer) := lexer.next
  ⟨lexer, ahead, opening ++ records⟩

/-- Uses up what is in view: the lexer is called for the next token. -/
def pull (s : LiveParser) : LiveParser :=
  let (ahead, records, lexer) := s.lexer.next
  ⟨lexer, ahead, s.journal ++ records⟩

/-- Reports a problem at what is in view. -/
def report (s : LiveParser) (problem : Problem) : LiveParser :=
  { s with journal := s.journal ++ [.finding ⟨s.ahead.span, problem⟩] }

/-- Reports that something else was expected than what is in view. -/
abbrev miss (s : LiveParser) (what : Expected) (goal : Goal) : LiveParser :=
  s.report (.expected what s.ahead.kind goal)

/-- What is left to read, the token in view included. -/
def size (s : LiveParser) : Nat := s.lexer.size + s.ahead.kind.toList.length

theorem size_pull_le (s : LiveParser) : s.pull.size ≤ s.size :=
  s.lexer.size_next_le.trans (Nat.le_add_right _ _)

/-- Using up a token leaves less to read. -/
theorem size_pull_lt {s : LiveParser} {kind : Kind String} (h : s.ahead.kind = some kind) :
    s.pull.size < s.size := by
  have hone : s.size = s.lexer.size + 1 := by
    rw [size, h]
    rfl
  rw [hone]
  exact Nat.lt_succ_of_le s.lexer.size_next_le

end LiveParser

/-- What reading from a parser comes to: a value, and the parser after it, which has no more left to
read than the one before. -/
structure Pulled (s : LiveParser) (α : Type) where
  value : α
  parser : LiveParser
  size_le : parser.size ≤ s.size

namespace Pulled

variable {α β : Type} {s : LiveParser}

/-- Reads nothing. -/
def done (s : LiveParser) (x : α) : Pulled s α := ⟨x, s, Nat.le_refl _⟩

/-- Goes on reading after a result. -/
def andThen (first : Pulled s α) (next : α → (t : LiveParser) → Pulled t β) : Pulled s β :=
  let second := next first.value first.parser
  ⟨second.value, second.parser, second.size_le.trans first.size_le⟩

/-- Uses up what is in view, and reads on from there. -/
def afterPull (p : Pulled s.pull α) : Pulled s α :=
  ⟨p.value, p.parser, p.size_le.trans s.size_pull_le⟩

/-- Reports at what is in view, and reads on from there. -/
def afterReport {problem : Problem} (p : Pulled (s.report problem) α) : Pulled s α :=
  ⟨p.value, p.parser, p.size_le⟩

end Pulled

namespace View

/-- The part that what is in view can play at the start of an operand. -/
def lead (view : View String) : Kind.Lead String := view.kind.elim .none Kind.lead

/-- The operator in view. -/
def binOp? (view : View String) : Option BinOp := view.kind.bind Kind.binOp?

end View

/-! ## Reading -/

namespace LiveParser

/-- Reads a token of one certain kind; reports and reads nothing if another is in view. -/
def expect (kind : Kind String) (goal : Goal) (s : LiveParser) : Pulled s Unit :=
  if s.ahead.kind = some kind then (Pulled.done s.pull ()).afterPull
  else (Pulled.done (s.miss (.token kind) goal) ()).afterReport

/-- Skips the rest of an expression: up to a semicolon, the end of the file, or a parenthesis that
closes none of the `depth` groups opened since. -/
def skipExpression (depth : Nat) (s : LiveParser) : Pulled s Unit :=
  match _h : s.ahead.kind with
  | none => .done s ()
  | some kind =>
    match kind, depth with
    | .semicolon, _ => .done s ()
    | .rightParen, 0 => .done s ()
    | .rightParen, depth + 1 => (s.pull.skipExpression depth).afterPull
    | .leftParen, depth => (s.pull.skipExpression (depth + 1)).afterPull
    | _, depth => (s.pull.skipExpression depth).afterPull
termination_by s.size
decreasing_by all_goals exact size_pull_lt _h

/-- Gives up an expression for which there is no room, and skips the rest of it. -/
def giveUp (s : LiveParser) : Pulled s (Expr String) :=
  let skipped := (s.report .tooDeep).skipExpression 0
  (skipped.andThen fun _ t => .done t (.hole s.ahead.span)).afterReport

mutual

/-- Reads a number, a variable, a signed operand or a group, with `room` levels of nesting left. -/
def operand (room : Nat) (goal : Goal) (s : LiveParser) : Pulled s (Expr String) :=
  match s.ahead.lead with
  | .number v => (Pulled.done s.pull (.lit s.ahead.span v)).afterPull
  | .name x => (Pulled.done s.pull (.var s.ahead.span x)).afterPull
  | .sign op =>
    match room with
    | 0 => s.giveUp
    | room + 1 =>
      ((operand room .signedOperand s.pull).andThen fun first t =>
        (fold room .unary first t).andThen fun e t =>
        .done t (.unary s.ahead.span op e)).afterPull
  | .group =>
    match room with
    | 0 => s.giveUp
    | room + 1 =>
      ((operand room .group s.pull).andThen fun first t =>
        (fold room .bottom first t).andThen fun e t =>
        (t.expect .rightParen .group).andThen fun _ t =>
        .done t e).afterPull
  | .none => (Pulled.done (s.miss .operand goal) (.hole s.ahead.span)).afterReport
termination_by structural room

/-- Folds the operators in view that bind tighter than `floor` onto a left operand, with `room`
levels of nesting left. -/
def fold (room : Nat) (floor : Prec) (left : Expr String) (s : LiveParser) :
    Pulled s (Expr String) :=
  match s.ahead.binOp? with
  | none => .done s left
  | some op =>
    if floor < op.prec then
      match room with
      | 0 => s.giveUp
      | room + 1 =>
        ((operand room .rightOperand s.pull).andThen fun first t =>
          (fold room op.prec first t).andThen fun right t =>
          fold room floor (.binary left.span op left right) t).afterPull
    else .done s left
termination_by structural room

end

/-- Reads an expression whose operators bind tighter than `floor`. -/
def expressionWithin (room : Nat) (floor : Prec) (goal : Goal) (s : LiveParser) :
    Pulled s (Expr String) :=
  (operand room goal s).andThen (fold room floor)

/-- Reads the name that a statement binds. -/
def boundName (s : LiveParser) : Pulled s String :=
  match s.ahead.lead with
  | .name x => (Pulled.done s.pull x).afterPull
  | _ => (Pulled.done (s.miss .identifier .letStatement) Parse.missingName).afterReport

/-- Reads a statement after its keyword, which stands at `span`. -/
def stmt (word : Kind.Keyword) (span : Span) (s : LiveParser) : Pulled s (Stmt String) :=
  match word with
  | .bind =>
    s.boundName.andThen fun x s =>
    (s.expect .equal .letStatement).andThen fun _ s =>
    (s.expressionWithin Parse.maxDepth .bottom .initializer).andThen fun e s =>
    (s.expect .semicolon .letStatement).andThen fun _ s =>
    .done s (.bind span x e)
  | .print =>
    (s.expressionWithin Parse.maxDepth .bottom .printStatement).andThen fun e s =>
    (s.expect .semicolon .printStatement).andThen fun _ s =>
    .done s (.print span e)

/-- Reads statements to the end of the file.  A token that starts no statement is reported and
skipped. -/
def stmts (s : LiveParser) : Pulled s (List (Stmt String)) :=
  match _h : s.ahead.kind with
  | none => .done s []
  | some kind =>
    match kind.keyword? with
    | some word =>
      let first := s.pull.stmt word s.ahead.span
      let more := first.parser.stmts
      ⟨first.value :: more.value, more.parser,
        (more.size_le.trans first.size_le).trans s.size_pull_le⟩
    | none => (s.miss .statement .program).pull.stmts.afterPull.afterReport
termination_by s.size
decreasing_by
  · exact Nat.lt_of_le_of_lt first.size_le (size_pull_lt _h)
  · exact size_pull_lt (s := s.miss .statement .program) _h

/-- Reads a program to the end of the file. -/
def program (s : LiveParser) : Pulled s (Program String) :=
  s.stmts.andThen fun ss t => .done t ⟨s.lexer.path, s.ahead.span, ss⟩

/-- Reads an expression and leaves what follows it. -/
def expression (s : LiveParser) : Pulled s (Expr String) :=
  s.expressionWithin Parse.maxDepth .bottom .expression

/-! ## Branch by branch -/

section Steps

variable {s : LiveParser} {room : Nat} {goal : Goal} {floor : Prec} {op : BinOp}

theorem operand_number {v : UInt64} (h : s.ahead.lead = .number v) :
    operand room goal s = (Pulled.done s.pull (.lit s.ahead.span v)).afterPull := by
  unfold operand
  rw [h]

theorem operand_name {x : String} (h : s.ahead.lead = .name x) :
    operand room goal s = (Pulled.done s.pull (.var s.ahead.span x)).afterPull := by
  unfold operand
  rw [h]

theorem operand_sign {op : UnOp} (h : s.ahead.lead = .sign op) :
    operand (room + 1) goal s
      = ((expressionWithin room .unary .signedOperand s.pull).andThen fun e t =>
        .done t (.unary s.ahead.span op e)).afterPull := by
  unfold operand
  rw [h]
  rfl

theorem operand_group (h : s.ahead.lead = .group) :
    operand (room + 1) goal s
      = ((expressionWithin room .bottom .group s.pull).andThen fun e t =>
        (t.expect .rightParen .group).andThen fun _ t => .done t e).afterPull := by
  unfold operand
  rw [h]
  rfl

theorem operand_full (h : s.ahead.lead = .group ∨ ∃ op, s.ahead.lead = .sign op) :
    operand 0 goal s = s.giveUp := by
  unfold operand
  rcases h with h | ⟨op, h⟩
  · rw [h]
  · rw [h]

theorem operand_none (h : s.ahead.lead = .none) :
    operand room goal s
      = (Pulled.done (s.miss .operand goal) (.hole s.ahead.span)).afterReport := by
  unfold operand
  rw [h]

theorem fold_stop (left : Expr String) (h : ∀ op ∈ s.ahead.binOp?, ¬ floor < op.prec) :
    fold room floor left s = .done s left := by
  unfold fold
  split
  · rfl
  · next op hop => rw [if_neg (h op hop)]

theorem fold_operator (left : Expr String) (hop : s.ahead.binOp? = some op)
    (hprec : floor < op.prec) :
    fold (room + 1) floor left s
      = ((expressionWithin room op.prec .rightOperand s.pull).andThen fun right t =>
        fold room floor (.binary left.span op left right) t).afterPull := by
  conv => lhs; unfold fold
  simp only [hop, hprec, if_true]
  rfl

theorem fold_full (left : Expr String) (hop : s.ahead.binOp? = some op) (hprec : floor < op.prec) :
    fold 0 floor left s = s.giveUp := by
  unfold fold
  simp only [hop, hprec, if_true]

theorem stmts_nil (h : s.ahead.kind = none) : s.stmts = .done s [] := by
  unfold stmts
  split
  · rfl
  · next kind hkind => cases h.symm.trans hkind

theorem stmts_keyword {kind : Kind String} {word : Kind.Keyword} (h : s.ahead.kind = some kind)
    (hword : kind.keyword? = some word) :
    s.stmts
      = ((s.pull.stmt word s.ahead.span).andThen fun first t =>
        t.stmts.andThen fun more t => .done t (first :: more)).afterPull := by
  conv => lhs; unfold stmts
  split
  · next hnone => cases h.symm.trans hnone
  · next kind' hkind =>
    obtain rfl : kind = kind' := Option.some.inj (h.symm.trans hkind)
    rw [hword]
    rfl

theorem stmts_skip {kind : Kind String} (h : s.ahead.kind = some kind)
    (hword : kind.keyword? = none) :
    s.stmts = (s.miss .statement .program).pull.stmts.afterPull.afterReport := by
  conv => lhs; unfold stmts
  split
  · next hnone => cases h.symm.trans hnone
  · next kind' hkind =>
    obtain rfl : kind = kind' := Option.some.inj (h.symm.trans hkind)
    rw [hword]

end Steps

end LiveParser

end LetCalc
