import LetCalc.Operator
import LetCalc.Position

/-!
# Tokens

The kinds of token, how each is written, and what part it can play in an expression.  Kinds take
the type of names as a parameter: the scanner yields names as texts, and names can be replaced by
interned symbols later.  The end of a file is no token: where one token may be seen or none, an
`Option` says which.
-/

namespace LetCalc

/-- The kinds of token. -/
inductive Kind (ι : Type) where
  | leftParen
  | rightParen
  | equal
  | semicolon
  | plus
  | minus
  | star
  | slash
  | keywordLet
  | keywordPrint
  | int (value : UInt64)
  | identifier (name : ι)
deriving DecidableEq, Repr

namespace Kind

variable {ι κ : Type}

/-- Replaces the name of an identifier. -/
def map (f : ι → κ) : Kind ι → Kind κ
  | leftParen => leftParen
  | rightParen => rightParen
  | equal => equal
  | semicolon => semicolon
  | plus => plus
  | minus => minus
  | star => star
  | slash => slash
  | keywordLet => keywordLet
  | keywordPrint => keywordPrint
  | int v => int v
  | identifier x => identifier (f x)

/-- The operation that the token stands for between two operands. -/
def binOp? : Kind ι → Option BinOp
  | plus => some .add
  | minus => some .sub
  | star => some .mul
  | slash => some .div
  | _ => none

/-- The sign that the token stands for in front of an operand. -/
def unOp? : Kind ι → Option UnOp
  | plus => some .plus
  | minus => some .minus
  | _ => none

/-- The part that a token can play at the start of an operand. -/
inductive Lead (ι : Type) where
  | number (value : UInt64)
  | name (x : ι)
  | sign (op : UnOp)
  /-- The parenthesis that opens a group. -/
  | group
  /-- No operand starts with the token. -/
  | none
deriving DecidableEq, Repr

/-- The part that the token plays at the start of an operand. -/
def lead : Kind ι → Lead ι
  | int v => .number v
  | identifier x => .name x
  | plus => .sign .plus
  | minus => .sign .minus
  | leftParen => .group
  | _ => .none

/-- The words that start a statement. -/
inductive Keyword where
  /-- The word of a statement that binds a variable. -/
  | bind
  | print
deriving DecidableEq, Repr

/-- The word that the token is, if it starts a statement. -/
def keyword? : Kind ι → Option Keyword
  | keywordLet => some .bind
  | keywordPrint => some .print
  | _ => none

/-- How the token is written. -/
def text : Kind String → String
  | leftParen => "("
  | rightParen => ")"
  | equal => "="
  | semicolon => ";"
  | plus => "+"
  | minus => "-"
  | star => "*"
  | slash => "/"
  | keywordLet => "let"
  | keywordPrint => "print"
  | int v => v.toNat.repr
  | identifier x => x

/-- The token that a character is by itself.  A slash is not among them, as it can open a
comment. -/
def ofChar? (c : Char) : Option (Kind ι) :=
  match c with
  | '(' => some leftParen
  | ')' => some rightParen
  | '=' => some equal
  | ';' => some semicolon
  | '+' => some plus
  | '-' => some minus
  | '*' => some star
  | _ => none

/-- The token that a word is: a keyword or a name. -/
def ofWord (word : String) : Kind String :=
  if word = "let" then keywordLet else if word = "print" then keywordPrint else identifier word

/-- What a message calls the token in view, or the end of the file. -/
def describe : Option (Kind String) → String
  | some kind => kind.text
  | none => "<end of file>"

@[simp]
theorem map_id (kind : Kind ι) : kind.map id = kind := by cases kind <;> rfl

end Kind

/-- A kind of token at a place in the source. -/
structure Token (ι : Type) where
  kind : Kind ι
  span : Span
deriving DecidableEq, Repr

/-- Replaces the name of an identifier. -/
def Token.map {ι κ : Type} (f : ι → κ) (token : Token ι) : Token κ :=
  ⟨token.kind.map f, token.span⟩

/-- What a reader of tokens has in view: a token, or the end of the file, which is no kind. -/
structure View (ι : Type) where
  kind : Option (Kind ι)
  span : Span
deriving DecidableEq, Repr

namespace View

variable {ι κ : Type}

/-- A token in view. -/
def ofToken (token : Token ι) : View ι := ⟨some token.kind, token.span⟩

/-- The end of the file in view. -/
def eof (span : Span) : View ι := ⟨none, span⟩

/-- The token in view. -/
def token? (view : View ι) : Option (Token ι) := view.kind.map (⟨·, view.span⟩)

/-- Replaces the name of an identifier. -/
def map (f : ι → κ) (view : View ι) : View κ := ⟨view.kind.map (Kind.map f), view.span⟩

@[simp]
theorem token?_ofToken (token : Token ι) : (ofToken token).token? = some token := rfl

@[simp]
theorem token?_eof (span : Span) : (eof span : View ι).token? = none := rfl

end View

end LetCalc
