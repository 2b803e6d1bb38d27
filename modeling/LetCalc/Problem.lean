import LetCalc.Token.Basic

/-!
# Problems of a source

What can be wrong with a source, where it was found, and how it is worded.  Scanning and parsing
never stop at a problem: they record a finding and go on.  A diagnostic is a finding together with
the label of its source.
-/

namespace LetCalc

/-- What the parser was looking for. -/
inductive Expected where
  | statement
  | identifier
  | operand
  /-- A token of one certain kind. -/
  | token (kind : Kind String)
deriving DecidableEq, Repr

/-- The wording of what was looked for. -/
def Expected.text : Expected → String
  | .statement => "statement"
  | .identifier => "identifier"
  | .operand => "primary or unary expression"
  | .token kind => "'" ++ kind.text ++ "'"

/-- What the parser was in the middle of. -/
inductive Goal where
  | program
  | letStatement
  | initializer
  | printStatement
  | expression
  | rightOperand
  | signedOperand
  | group
deriving DecidableEq, Repr

/-- The wording of what was being parsed. -/
def Goal.text : Goal → String
  | .program => "program"
  | .letStatement => "let statement"
  | .initializer => "initialization expression of let statement"
  | .printStatement => "print statement"
  | .expression => "expression"
  | .rightOperand => "right-hand side of binary expression"
  | .signedOperand => "operand of unary expression"
  | .group => "parenthesized expression"

/-- What can be wrong with a source. -/
inductive Problem where
  /-- Reading failed before the end of the source. -/
  | readFailure (reason : String)
  /-- A byte sequence outside comments is not UTF-8. -/
  | malformed
  /-- A character outside comments belongs to no token. -/
  | strayChar (c : Char)
  /-- The source ends inside a block comment. -/
  | openComment
  /-- A number has no 64-bit representation. -/
  | overflow (digits : String)
  /-- Another token was needed than the one in view. -/
  | expected (what : Expected) (found : Option (Kind String)) (goal : Goal)
  /-- An expression exceeds the nesting limit. -/
  | tooDeep
  /-- A problem found by someone else, in their words. -/
  | custom (text : String)
deriving DecidableEq, Repr

/-- The wording of a problem. -/
def Problem.message : Problem → String
  | .readFailure reason => "cannot read input: " ++ reason
  | .malformed => "invalid UTF-8 character"
  | .strayChar c => "invalid input char: '" ++ c.toString ++ "'"
  | .openComment => "non-terminated multiline comment"
  | .overflow digits => "integer literal '" ++ digits ++ "' does not fit into 64 bits"
  | .expected what found goal =>
    "expected " ++ what.text ++ ", got '" ++ Kind.describe found ++ "' while parsing " ++ goal.text
  | .tooDeep => "expression nested too deeply"
  | .custom text => text

/-- A problem and its place in a source. -/
structure Finding where
  span : Span
  problem : Problem
deriving DecidableEq, Repr

/-- A problem and its place in a labelled source. -/
structure Diagnostic where
  loc : Loc
  problem : Problem
deriving DecidableEq, Repr

/-- A finding in the source with the given label. -/
def Finding.diagnostic (path : Option String) (finding : Finding) : Diagnostic :=
  ⟨⟨path, finding.span⟩, finding.problem⟩

/-- A diagnostic as it is shown, on one line unless a label or a reason breaks it. -/
def Diagnostic.text (d : Diagnostic) : String := d.loc.text ++ ": error: " ++ d.problem.message

end LetCalc
