import LetCalc.Operator
import LetCalc.Position

/-!
# Programs

Expressions, statements and programs, and how they are written.  Trees take the type of names as a
parameter: the parser builds them over texts, and they can be carried over to interned symbols.
Where a source is wrong, a hole stands in for the missing expression.

Main results:

- Definitions `Expr.map`, `Stmt.map` and `Program.map`: the same tree over other names.
- Definition `Program.render`: a program as fully parenthesized text.
-/

namespace LetCalc

/-! ## Expressions -/

/-- An expression, each node with its place in the source. -/
inductive Expr (ι : Type) where
  | lit (span : Span) (value : UInt64)
  | var (span : Span) (name : ι)
  | unary (span : Span) (op : UnOp) (operand : Expr ι)
  | binary (span : Span) (op : BinOp) (left right : Expr ι)
  /-- Stands in for an expression that is missing from the source. -/
  | hole (span : Span)
deriving DecidableEq, Repr

namespace Expr

variable {ι κ μ : Type}

/-- The place of an expression: of its token, its sign, or its left operand. -/
def span : Expr ι → Span
  | lit s _ => s
  | var s _ => s
  | unary s _ _ => s
  | binary s _ _ _ => s
  | hole s => s

/-- The same expression over other names. -/
def map (f : ι → κ) : Expr ι → Expr κ
  | lit s v => lit s v
  | var s x => var s (f x)
  | unary s op e => unary s op (map f e)
  | binary s op l r => binary s op (map f l) (map f r)
  | hole s => hole s

/-- The variables of an expression from left to right. -/
def vars : Expr ι → List ι
  | lit .. | hole _ => []
  | var _ x => [x]
  | unary _ _ e => vars e
  | binary _ _ l r => vars l ++ vars r

/-- How an expression is written, with parentheses around every operator. -/
def render : Expr String → String
  | lit _ v => v.toNat.repr
  | var _ x => x
  | unary _ op e => "(" ++ op.text ++ render e ++ ")"
  | binary _ op l r => "(" ++ render l ++ " " ++ op.text ++ " " ++ render r ++ ")"
  | hole _ => "<error expression>"

@[simp]
theorem map_map (f : ι → κ) (g : κ → μ) (e : Expr ι) : (e.map f).map g = e.map (g ∘ f) := by
  induction e with
  | lit | var | hole => rfl
  | unary s op e ih => simp [map, ih]
  | binary s op l r ihl ihr => simp [map, ihl, ihr]

@[simp]
theorem span_map (f : ι → κ) (e : Expr ι) : (e.map f).span = e.span := by
  cases e <;> rfl

@[simp]
theorem vars_map (f : ι → κ) (e : Expr ι) : (e.map f).vars = e.vars.map f := by
  induction e with
  | lit | var | hole => rfl
  | unary s op e ih => simp [map, vars, ih]
  | binary s op l r ihl ihr => simp [map, vars, ihl, ihr]

end Expr

/-! ## Statements -/

/-- A statement, with the place of its keyword. -/
inductive Stmt (ι : Type) where
  /-- Gives a variable the value of an expression. -/
  | bind (span : Span) (name : ι) (value : Expr ι)
  /-- Prints the value of an expression on a line. -/
  | print (span : Span) (value : Expr ι)
deriving DecidableEq, Repr

namespace Stmt

variable {ι κ : Type}

/-- The place of the statement's keyword. -/
def span : Stmt ι → Span
  | bind s _ _ => s
  | print s _ => s

/-- The expression of a statement. -/
def expr : Stmt ι → Expr ι
  | bind _ _ e => e
  | print _ e => e

/-- The same statement over other names. -/
def map (f : ι → κ) : Stmt ι → Stmt κ
  | bind s x e => bind s (f x) (e.map f)
  | print s e => print s (e.map f)

/-- The names in a statement: those of its expression, and the variable that it binds. -/
def names : Stmt ι → List ι
  | bind _ x e => e.vars ++ [x]
  | print _ e => e.vars

/-- How a statement is written, on a line of its own. -/
def render : Stmt String → String
  | bind _ x e => "let " ++ x ++ " = " ++ e.render ++ ";\n"
  | print _ e => "print " ++ e.render ++ ";\n"

end Stmt

/-! ## Programs -/

/-- A program: the label of its source, the place of its first token, and its statements. -/
structure Program (ι : Type) where
  path : Option String
  span : Span
  stmts : List (Stmt ι)
deriving DecidableEq, Repr

namespace Program

variable {ι κ : Type}

/-- The same program over other names. -/
def map (f : ι → κ) (program : Program ι) : Program κ :=
  ⟨program.path, program.span, program.stmts.map (Stmt.map f)⟩

/-- The names in a program, in the order in which running it meets them. -/
def names (program : Program ι) : List ι := program.stmts.flatMap Stmt.names

/-- Whether two programs are the same, places included, however their paths are spelled. -/
def same [DecidableEq ι] (a b : Program ι) : Bool :=
  samePath a.path b.path && a.span = b.span && a.stmts = b.stmts

/-- How a program is written. -/
def render (program : Program String) : String := String.join (program.stmts.map Stmt.render)

end Program

end LetCalc
