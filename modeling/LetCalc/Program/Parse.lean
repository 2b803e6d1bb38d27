import LetCalc.Problem
import LetCalc.Program.Basic

/-!
# Parsing

The list of tokens of a source is read as a program.  Reading never fails: where a token is
missing a finding is reported, a hole or the name `<error>` stands in, and reading goes on with the
token in view.

Operators are folded to the left as long as they bind tighter than what surrounds them.  Nesting is
limited: each group, each sign, and each operator already folded at the same place uses up one
level of the room that is left.  An expression that runs out of room is skipped.

Main results:

- Definitions `Parse.operand`, `Parse.fold` and `Parse.expression`: reading an expression.
- Definition `Parse.program`: reading all statements of a source.
- Theorem `Parse.expression_rest_suffix`: what is not read is left as it is.
-/

namespace LetCalc

/-- The tokens not yet read. -/
abbrev Tokens := List (Token String)

/-- The result of reading from the front of the tokens: a value, the tokens after it, and what was
found on the way. -/
structure Parsed (α : Type) where
  value : α
  rest : Tokens
  findings : List Finding
deriving DecidableEq, Repr

namespace Parsed

variable {α β : Type}

/-- Goes on reading after a result, and keeps what was found before. -/
def andThen (first : Parsed α) (next : α → Tokens → Parsed β) : Parsed β :=
  let second := next first.value first.rest
  ⟨second.value, second.rest, first.findings ++ second.findings⟩

@[simp]
theorem value_andThen (first : Parsed α) (next : α → Tokens → Parsed β) :
    (first.andThen next).value = (next first.value first.rest).value := rfl

@[simp]
theorem rest_andThen (first : Parsed α) (next : α → Tokens → Parsed β) :
    (first.andThen next).rest = (next first.value first.rest).rest := rfl

@[simp]
theorem findings_andThen (first : Parsed α) (next : α → Tokens → Parsed β) :
    (first.andThen next).findings
      = first.findings ++ (next first.value first.rest).findings := rfl

end Parsed

/-- What is in view: the first token, or the end of the file. -/
def Tokens.view (eof : Span) : Tokens → View String
  | [] => .eof eof
  | token :: _ => .ofToken token

namespace Parse

/-! ## Expected tokens -/

/-- The finding that something else was expected than what is in view. -/
def unexpected (eof : Span) (what : Expected) (goal : Goal) (tokens : Tokens) : Finding :=
  ⟨(tokens.view eof).span, .expected what (tokens.view eof).kind goal⟩

/-- Reads a token of one certain kind; reports and reads nothing if another is in view. -/
def expect (eof : Span) (kind : Kind String) (goal : Goal) (tokens : Tokens) : Parsed Unit :=
  match tokens with
  | token :: rest =>
    if token.kind = kind then ⟨(), rest, []⟩
    else ⟨(), tokens, [unexpected eof (.token kind) goal tokens]⟩
  | [] => ⟨(), [], [unexpected eof (.token kind) goal []]⟩

/-! ## Expressions -/

/-- The deepest nesting of expressions. -/
def maxDepth : Nat := 512

/-- The tokens from the end of an expression on: from a semicolon, or from a parenthesis that
closes none of the `depth` groups opened since. -/
def skipExpression (depth : Nat) : Tokens → Tokens
  | [] => []
  | token :: rest =>
    match token.kind, depth with
    | .semicolon, _ => token :: rest
    | .rightParen, 0 => token :: rest
    | .rightParen, depth + 1 => skipExpression depth rest
    | .leftParen, depth => skipExpression (depth + 1) rest
    | _, depth => skipExpression depth rest

/-- Gives up an expression for which there is no room, and skips the rest of it. -/
def giveUp (eof : Span) (tokens : Tokens) : Parsed (Expr String) :=
  let span := (tokens.view eof).span
  ⟨.hole span, skipExpression 0 tokens, [⟨span, .tooDeep⟩]⟩

mutual

/-- Reads a number, a variable, a signed operand or a group, with `room` levels of nesting left. -/
def operand (eof : Span) (room : Nat) (goal : Goal) (tokens : Tokens) : Parsed (Expr String) :=
  match tokens with
  | [] => ⟨.hole eof, [], [unexpected eof .operand goal []]⟩
  | token :: rest =>
    match token.kind.lead with
    | .number v => ⟨.lit token.span v, rest, []⟩
    | .name x => ⟨.var token.span x, rest, []⟩
    | .sign op =>
      match room with
      | 0 => giveUp eof tokens
      | room + 1 =>
        (operand eof room .signedOperand rest).andThen fun first tokens =>
        (fold eof room .unary first tokens).andThen fun e tokens =>
        ⟨.unary token.span op e, tokens, []⟩
    | .group =>
      match room with
      | 0 => giveUp eof tokens
      | room + 1 =>
        (operand eof room .group rest).andThen fun first tokens =>
        (fold eof room .bottom first tokens).andThen fun e tokens =>
        (expect eof .rightParen .group tokens).andThen fun _ tokens =>
        ⟨e, tokens, []⟩
    | .none => ⟨.hole token.span, tokens, [unexpected eof .operand goal tokens]⟩
termination_by structural room

/-- Folds the operators in view that bind tighter than `floor` onto a left operand, with `room`
levels of nesting left. -/
def fold (eof : Span) (room : Nat) (floor : Prec) (left : Expr String) (tokens : Tokens) :
    Parsed (Expr String) :=
  match tokens with
  | [] => ⟨left, [], []⟩
  | token :: rest =>
    match token.kind.binOp? with
    | none => ⟨left, tokens, []⟩
    | some op =>
      if floor < op.prec then
        match room with
        | 0 => giveUp eof tokens
        | room + 1 =>
          (operand eof room .rightOperand rest).andThen fun first tokens =>
          (fold eof room op.prec first tokens).andThen fun right tokens =>
          fold eof room floor (.binary left.span op left right) tokens
      else ⟨left, tokens, []⟩
termination_by structural room

end

/-- Reads an expression whose operators bind tighter than `floor`. -/
def expression (eof : Span) (room : Nat) (floor : Prec) (goal : Goal) (tokens : Tokens) :
    Parsed (Expr String) :=
  (operand eof room goal tokens).andThen (fold eof room floor)

/-! ## What is left to read -/

/-- A finding or a token is all that expecting a token takes away. -/
theorem expect_rest_suffix (eof : Span) (kind : Kind String) (goal : Goal) (tokens : Tokens) :
    (expect eof kind goal tokens).rest <:+ tokens := by
  unfold expect
  split
  · split
    · exact List.suffix_cons _ _
    · exact List.suffix_refl _
  · exact List.suffix_refl _

theorem skipExpression_suffix (depth : Nat) (tokens : Tokens) :
    skipExpression depth tokens <:+ tokens := by
  fun_induction skipExpression depth tokens with
  | case1 | case2 | case3 => exact List.suffix_refl _
  | case4 token rest _ _ ih => exact ih.trans (List.suffix_cons token rest)
  | case5 token rest _ _ ih => exact ih.trans (List.suffix_cons token rest)
  | case6 token rest _ _ _ _ _ ih => exact ih.trans (List.suffix_cons token rest)

private theorem operand_fold_rest_suffix (eof : Span) (room : Nat) :
    (∀ goal tokens, (operand eof room goal tokens).rest <:+ tokens) ∧
      ∀ floor left tokens, (fold eof room floor left tokens).rest <:+ tokens := by
  induction room with
  | zero =>
    constructor
    · intro goal tokens
      unfold operand
      split
      · exact List.suffix_refl _
      · split
        · exact List.suffix_cons _ _
        · exact List.suffix_cons _ _
        · exact skipExpression_suffix 0 _
        · exact skipExpression_suffix 0 _
        · exact List.suffix_refl _
    · intro floor left tokens
      unfold fold
      split
      · exact List.suffix_refl _
      · split
        · exact List.suffix_refl _
        · split
          · exact skipExpression_suffix 0 _
          · exact List.suffix_refl _
  | succ room ih =>
    obtain ⟨ihOperand, ihFold⟩ := ih
    constructor
    · intro goal tokens
      unfold operand
      split
      · exact List.suffix_refl _
      · split
        · exact List.suffix_cons _ _
        · exact List.suffix_cons _ _
        · exact (ihFold ..).trans ((ihOperand ..).trans (List.suffix_cons _ _))
        · exact (expect_rest_suffix ..).trans ((ihFold ..).trans ((ihOperand ..).trans
            (List.suffix_cons _ _)))
        · exact List.suffix_refl _
    · intro floor left tokens
      unfold fold
      split
      · exact List.suffix_refl _
      · split
        · exact List.suffix_refl _
        · split
          · exact (ihFold ..).trans ((ihFold ..).trans ((ihOperand ..).trans
              (List.suffix_cons _ _)))
          · exact List.suffix_refl _

/-- Reading an operand leaves the end of the tokens. -/
theorem operand_rest_suffix (eof : Span) (room : Nat) (goal : Goal) (tokens : Tokens) :
    (operand eof room goal tokens).rest <:+ tokens :=
  (operand_fold_rest_suffix eof room).1 goal tokens

/-- Folding operators leaves the end of the tokens. -/
theorem fold_rest_suffix (eof : Span) (room : Nat) (floor : Prec) (left : Expr String)
    (tokens : Tokens) : (fold eof room floor left tokens).rest <:+ tokens :=
  (operand_fold_rest_suffix eof room).2 floor left tokens

/-- Reading an expression leaves the end of the tokens. -/
theorem expression_rest_suffix (eof : Span) (room : Nat) (floor : Prec) (goal : Goal)
    (tokens : Tokens) : (expression eof room floor goal tokens).rest <:+ tokens :=
  (fold_rest_suffix ..).trans (operand_rest_suffix ..)

/-! ## Statements -/

/-- The name that stands in for a missing one.  No name in a source is spelled like it. -/
def missingName : String := "<error>"

/-- Reads the name that a statement binds. -/
def boundName (eof : Span) (tokens : Tokens) : Parsed String :=
  match tokens with
  | [] => ⟨missingName, [], [unexpected eof .identifier .letStatement []]⟩
  | token :: rest =>
    match token.kind.lead with
    | .name x => ⟨x, rest, []⟩
    | _ => ⟨missingName, tokens, [unexpected eof .identifier .letStatement tokens]⟩

/-- Reads a binding after its keyword, which stands at `span`. -/
def bindStmt (eof : Span) (span : Span) (tokens : Tokens) : Parsed (Stmt String) :=
  (boundName eof tokens).andThen fun x tokens =>
  (expect eof .equal .letStatement tokens).andThen fun _ tokens =>
  (expression eof maxDepth .bottom .initializer tokens).andThen fun e tokens =>
  (expect eof .semicolon .letStatement tokens).andThen fun _ tokens =>
  ⟨.bind span x e, tokens, []⟩

/-- Reads a print statement after its keyword, which stands at `span`. -/
def printStmt (eof : Span) (span : Span) (tokens : Tokens) : Parsed (Stmt String) :=
  (expression eof maxDepth .bottom .printStatement tokens).andThen fun e tokens =>
  (expect eof .semicolon .printStatement tokens).andThen fun _ tokens =>
  ⟨.print span e, tokens, []⟩

theorem boundName_rest_suffix (eof : Span) (tokens : Tokens) :
    (boundName eof tokens).rest <:+ tokens := by
  unfold boundName
  split
  · exact List.suffix_refl _
  · split
    · exact List.suffix_cons _ _
    · exact List.suffix_refl _

theorem bindStmt_rest_suffix (eof : Span) (span : Span) (tokens : Tokens) :
    (bindStmt eof span tokens).rest <:+ tokens :=
  (expect_rest_suffix ..).trans ((expression_rest_suffix ..).trans
    ((expect_rest_suffix ..).trans (boundName_rest_suffix ..)))

theorem printStmt_rest_suffix (eof : Span) (span : Span) (tokens : Tokens) :
    (printStmt eof span tokens).rest <:+ tokens :=
  (expect_rest_suffix ..).trans (expression_rest_suffix ..)

/-- Reads statements to the end of the file, after those already read, and leaves what follows.  A
token that starts no statement is reported and skipped. -/
def stmtsFrom (eof : Span) (stmts : Array (Stmt String)) (findings : Array Finding) :
    Tokens → Array (Stmt String) × Array Finding × Tokens
  | [] => (stmts, findings, [])
  | token :: rest =>
    match token.kind.keyword? with
    | some .bind =>
      let stmt := bindStmt eof token.span rest
      stmtsFrom eof (stmts.push stmt.value) (findings ++ stmt.findings) stmt.rest
    | some .print =>
      let stmt := printStmt eof token.span rest
      stmtsFrom eof (stmts.push stmt.value) (findings ++ stmt.findings) stmt.rest
    | none =>
      let finding := unexpected eof .statement .program (token :: rest)
      stmtsFrom eof stmts (findings.push finding) rest
termination_by tokens => tokens.length
decreasing_by
  · exact Nat.lt_succ_of_le (bindStmt_rest_suffix ..).length_le
  · exact Nat.lt_succ_of_le (printStmt_rest_suffix ..).length_le
  · exact Nat.lt_succ_self _

/-- Reads the tokens of a source as a program. -/
def program (path : Option String) (eof : Span) (tokens : Tokens) : Parsed (Program String) :=
  let (stmts, findings, rest) := stmtsFrom eof #[] #[] tokens
  ⟨⟨path, (tokens.view eof).span, stmts.toList⟩, rest, findings.toList⟩

end Parse

end LetCalc
