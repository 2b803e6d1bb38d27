import LetCalc.Program.Basic
import LetCalc.Token.Basic

/-!
# The grammar

Programs as a context-free grammar over kinds of token, stratified by precedence:

    program := stmt*
    stmt    := 'let' NAME '=' expr ';' | 'print' expr ';'
    expr    := expr ('+' | '-') term | term
    term    := term ('*' | '/') unary | unary
    unary   := ('+' | '-') unary | primary
    primary := INT | NAME | '(' expr ')'

A derivation is a piece of data: it says which tokens it covers and which tree it stands for, and
the nesting that it takes can be read off it.  Places play no part, and a group leaves no trace in
the tree.

Main results:

- Definitions `Derivation`, `StmtDerivation` and `ProgramDerivation`: the rules of the grammar.
- Definition `Derivation.demand`: the levels of nesting that a derivation takes.
- Theorem `ProgramDerivation.identifier_of_mem_names`: the names in a derived program are names
  among its tokens.
-/

namespace LetCalc

/-! ## Trees without places -/

/-- An expression without places. -/
inductive ExprTree (ι : Type) where
  | lit (value : UInt64)
  | var (name : ι)
  | unary (op : UnOp) (operand : ExprTree ι)
  | binary (op : BinOp) (left right : ExprTree ι)
  /-- Stands in for an expression that is missing from the source. -/
  | hole
deriving DecidableEq, Repr

/-- A statement without places. -/
inductive StmtTree (ι : Type) where
  | bind (name : ι) (value : ExprTree ι)
  | print (value : ExprTree ι)
deriving DecidableEq, Repr

variable {ι κ : Type}

/-- Whether no part of the expression is missing. -/
def ExprTree.isWhole : ExprTree ι → Bool
  | .lit _ | .var _ => true
  | .unary _ e => e.isWhole
  | .binary _ l r => l.isWhole && r.isWhole
  | .hole => false

/-- The variables of an expression from left to right. -/
def ExprTree.vars : ExprTree ι → List ι
  | .lit _ | .hole => []
  | .var x => [x]
  | .unary _ e => e.vars
  | .binary _ l r => l.vars ++ r.vars

/-- The expression of a statement. -/
def StmtTree.expr : StmtTree ι → ExprTree ι
  | .bind _ e => e
  | .print e => e

/-- The names in a statement. -/
def StmtTree.names : StmtTree ι → List ι
  | .bind x e => e.vars ++ [x]
  | .print e => e.vars

/-- The expression without its places. -/
def Expr.tree : Expr ι → ExprTree ι
  | .lit _ v => .lit v
  | .var _ x => .var x
  | .unary _ op e => .unary op e.tree
  | .binary _ op l r => .binary op l.tree r.tree
  | .hole _ => .hole

/-- The statement without its places. -/
def Stmt.tree : Stmt ι → StmtTree ι
  | .bind _ x e => .bind x e.tree
  | .print _ e => .print e.tree

/-- The statements of a program without their places. -/
def Program.trees (program : Program ι) : List (StmtTree ι) := program.stmts.map Stmt.tree

/-- The expression with this tree all of whose places are the start of a source. -/
def ExprTree.toExpr : ExprTree ι → Expr ι
  | .lit v => .lit (.single .start) v
  | .var x => .var (.single .start) x
  | .unary op e => .unary (.single .start) op e.toExpr
  | .binary op l r => .binary (.single .start) op l.toExpr r.toExpr
  | .hole => .hole (.single .start)

/-- The statement with this tree all of whose places are the start of a source. -/
def StmtTree.toStmt : StmtTree ι → Stmt ι
  | .bind x e => .bind (.single .start) x e.toExpr
  | .print e => .print (.single .start) e.toExpr

@[simp]
theorem Expr.vars_tree (e : Expr ι) : e.tree.vars = e.vars := by
  induction e with
  | lit | var | hole => rfl
  | unary s op e ih => exact ih
  | binary s op l r ihl ihr => simp [tree, ExprTree.vars, vars, ihl, ihr]

@[simp]
theorem Stmt.expr_tree (stmt : Stmt ι) : stmt.tree.expr = stmt.expr.tree := by
  cases stmt <;> rfl

@[simp]
theorem Stmt.names_tree (stmt : Stmt ι) : stmt.tree.names = stmt.names := by
  cases stmt <;> simp [tree, StmtTree.names, names]

@[simp]
theorem Stmt.expr_map (f : ι → κ) (stmt : Stmt ι) :
    (stmt.map f).expr = stmt.expr.map f := by
  cases stmt <;> rfl

@[simp]
theorem Stmt.names_map (f : ι → κ) (stmt : Stmt ι) :
    (stmt.map f).names = stmt.names.map f := by
  cases stmt <;> simp [map, names]

theorem Program.names_map (f : ι → κ) (program : Program ι) :
    (program.map f).names = program.names.map f := by
  simp [names, map, List.flatMap_map, List.map_flatMap]

namespace Grammar

/-! ## Expressions -/

/-- The strata of expressions, from loosest to tightest. -/
inductive Nonterminal where
  | expr
  | term
  | unary
  | primary
deriving DecidableEq, Repr

/-- A derivation of some tokens from a nonterminal, and the tree that it stands for. -/
inductive Derivation : Nonterminal → List (Kind String) → ExprTree String → Type where
  | add {ks ks' : List (Kind String)} {l r : ExprTree String}
      (left : Derivation .expr ks l) (right : Derivation .term ks' r) :
      Derivation .expr (ks ++ .plus :: ks') (.binary .add l r)
  | sub {ks ks' : List (Kind String)} {l r : ExprTree String}
      (left : Derivation .expr ks l) (right : Derivation .term ks' r) :
      Derivation .expr (ks ++ .minus :: ks') (.binary .sub l r)
  | ofTerm {ks : List (Kind String)} {t : ExprTree String} (term : Derivation .term ks t) :
      Derivation .expr ks t
  | mul {ks ks' : List (Kind String)} {l r : ExprTree String}
      (left : Derivation .term ks l) (right : Derivation .unary ks' r) :
      Derivation .term (ks ++ .star :: ks') (.binary .mul l r)
  | div {ks ks' : List (Kind String)} {l r : ExprTree String}
      (left : Derivation .term ks l) (right : Derivation .unary ks' r) :
      Derivation .term (ks ++ .slash :: ks') (.binary .div l r)
  | ofUnary {ks : List (Kind String)} {t : ExprTree String} (unary : Derivation .unary ks t) :
      Derivation .term ks t
  | plus {ks : List (Kind String)} {t : ExprTree String} (operand : Derivation .unary ks t) :
      Derivation .unary (.plus :: ks) (.unary .plus t)
  | minus {ks : List (Kind String)} {t : ExprTree String} (operand : Derivation .unary ks t) :
      Derivation .unary (.minus :: ks) (.unary .minus t)
  | ofPrimary {ks : List (Kind String)} {t : ExprTree String} (primary : Derivation .primary ks t) :
      Derivation .unary ks t
  | int (v : UInt64) : Derivation .primary [.int v] (.lit v)
  | name (x : String) : Derivation .primary [.identifier x] (.var x)
  | group {ks : List (Kind String)} {t : ExprTree String} (inner : Derivation .expr ks t) :
      Derivation .primary (.leftParen :: (ks ++ [.rightParen])) t

namespace Derivation

variable {nt : Nonterminal} {ks : List (Kind String)} {t : ExprTree String}

/-- The number of operators in the outermost chain, whose operators are folded one by one onto the
operand in front. -/
def folds {nt : Nonterminal} {ks : List (Kind String)} {t : ExprTree String} :
    Derivation nt ks t → Nat
  | add left _ | sub left _ | mul left _ | div left _ => left.folds + 1
  | ofTerm term => term.folds
  | ofUnary _ | plus _ | minus _ | ofPrimary _ | int _ | name _ | group _ => 0

/-- The levels of nesting that a derivation takes: one for each sign and each group, and for the
right operand of an operator as many as operators of the chain stand in front of it. -/
def demand {nt : Nonterminal} {ks : List (Kind String)} {t : ExprTree String} :
    Derivation nt ks t → Nat
  | add left right | sub left right | mul left right | div left right =>
    max left.demand (left.folds + 1 + right.demand)
  | ofTerm term => term.demand
  | ofUnary unary => unary.demand
  | plus operand | minus operand => 1 + operand.demand
  | ofPrimary primary => primary.demand
  | int _ | name _ => 0
  | group inner => 1 + inner.demand

/-- Nothing is missing from a derived tree. -/
theorem isWhole_tree (d : Derivation nt ks t) : t.isWhole = true := by
  induction d with
  | add _ _ ihl ihr | sub _ _ ihl ihr | mul _ _ ihl ihr | div _ _ ihl ihr =>
    simp [ExprTree.isWhole, ihl, ihr]
  | ofTerm _ ih | ofUnary _ ih | plus _ ih | minus _ ih | ofPrimary _ ih | group _ ih => exact ih
  | int | name => rfl

/-- The variables in a derived tree are names among its tokens. -/
theorem identifier_of_mem_vars (d : Derivation nt ks t) {x : String} (h : x ∈ t.vars) :
    Kind.identifier x ∈ ks := by
  induction d with
  | add _ _ ihl ihr | sub _ _ ihl ihr | mul _ _ ihl ihr | div _ _ ihl ihr =>
    rcases List.mem_append.1 h with h | h
    · exact List.mem_append_left _ (ihl h)
    · exact List.mem_append_right _ (List.mem_cons_of_mem _ (ihr h))
  | ofTerm _ ih | ofUnary _ ih | ofPrimary _ ih => exact ih h
  | plus _ ih | minus _ ih => exact List.mem_cons_of_mem _ (ih h)
  | int => cases h
  | name y =>
    have hxy : x = y := List.mem_singleton.1 h
    simp [hxy]
  | group _ ih => exact List.mem_cons_of_mem _ (List.mem_append_left _ (ih h))

end Derivation

/-! ## Statements and programs -/

/-- A derivation of a statement. -/
inductive StmtDerivation : List (Kind String) → StmtTree String → Type where
  | bind {ks : List (Kind String)} {t : ExprTree String} (x : String)
      (value : Derivation .expr ks t) :
      StmtDerivation (.keywordLet :: .identifier x :: .equal :: (ks ++ [.semicolon])) (.bind x t)
  | print {ks : List (Kind String)} {t : ExprTree String} (value : Derivation .expr ks t) :
      StmtDerivation (.keywordPrint :: (ks ++ [.semicolon])) (.print t)

/-- A derivation of a whole program, statement by statement. -/
inductive ProgramDerivation : List (Kind String) → List (StmtTree String) → Type where
  | nil : ProgramDerivation [] []
  | cons {ks ks' : List (Kind String)} {s : StmtTree String} {ss : List (StmtTree String)}
      (stmt : StmtDerivation ks s) (rest : ProgramDerivation ks' ss) :
      ProgramDerivation (ks ++ ks') (s :: ss)

/-- The levels of nesting that the expression of a statement takes. -/
def StmtDerivation.demand {ks : List (Kind String)} {s : StmtTree String} :
    StmtDerivation ks s → Nat
  | bind _ value | print value => value.demand

/-- The levels of nesting that each statement of a program takes. -/
def ProgramDerivation.demands {ks : List (Kind String)} {ss : List (StmtTree String)} :
    ProgramDerivation ks ss → List Nat
  | nil => []
  | cons stmt rest => stmt.demand :: rest.demands

theorem StmtDerivation.isWhole_expr {ks : List (Kind String)} {s : StmtTree String}
    (d : StmtDerivation ks s) : s.expr.isWhole = true := by
  cases d with
  | bind x value => exact value.isWhole_tree
  | print value => exact value.isWhole_tree

theorem StmtDerivation.identifier_of_mem_names {ks : List (Kind String)} {s : StmtTree String}
    (d : StmtDerivation ks s) {x : String} (h : x ∈ s.names) : Kind.identifier x ∈ ks := by
  cases d with
  | bind y value =>
    rcases List.mem_append.1 h with h | h
    · have hvalue := value.identifier_of_mem_vars h
      simp [hvalue]
    · have hxy : x = y := List.mem_singleton.1 h
      simp [hxy]
  | print value =>
    have hvalue := value.identifier_of_mem_vars h
    simp [hvalue]

/-- Nothing is missing from a derived program. -/
theorem ProgramDerivation.isWhole_of_mem {ks : List (Kind String)} {ss : List (StmtTree String)}
    (d : ProgramDerivation ks ss) {s : StmtTree String} (h : s ∈ ss) : s.expr.isWhole = true := by
  induction d with
  | nil => cases h
  | cons stmt rest ih =>
    rcases List.mem_cons.1 h with rfl | h
    · exact stmt.isWhole_expr
    · exact ih h

/-- The names in a derived program are names among its tokens. -/
theorem ProgramDerivation.identifier_of_mem_names {ks : List (Kind String)}
    {ss : List (StmtTree String)} (d : ProgramDerivation ks ss) {s : StmtTree String} {x : String}
    (hs : s ∈ ss) (hx : x ∈ s.names) : Kind.identifier x ∈ ks := by
  induction d with
  | nil => cases hs
  | cons stmt rest ih =>
    rcases List.mem_cons.1 hs with rfl | hs
    · exact List.mem_append_left _ (stmt.identifier_of_mem_names hx)
    · exact List.mem_append_right _ (ih hs)

end Grammar

end LetCalc
