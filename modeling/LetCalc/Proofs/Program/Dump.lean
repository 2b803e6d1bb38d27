import LetCalc.Proofs.Machine.Renaming
import LetCalc.Proofs.Program.Rendering

/-!
# Dumps

A program that was parsed without a report can be rendered, and the text parsed again in a fresh
context.  The text takes more levels of nesting than the source did, since every operator gets a
group of its own.  If it is not too deep, the second program is written like the first one and means
the same.  If it is too deep, the second parse reports an error, though the tree is the same.

Main results:

- Definition `Program.DumpStable`: what is expected of a dump.
- Theorem `Context.parse_renderable`: the names of an accepted source can be spelled, and nothing is
  missing from it.
- Theorem `Context.dumpStable_iff`: when dumps are stable.
-/

namespace LetCalc

open Grammar

/-! ## Text and meaning -/

/-- Places do not matter to how an expression is written. -/
theorem Expr.render_toExpr (e : Expr String) : e.tree.toExpr.render = e.render := by
  induction e with
  | lit | var | hole => rfl
  | unary s op e ih => simp only [tree, ExprTree.toExpr, render, ih]
  | binary s op l r ihl ihr => simp only [tree, ExprTree.toExpr, render, ihl, ihr]

/-- Places do not matter to how a statement is written. -/
theorem Stmt.render_toStmt (stmt : Stmt String) : stmt.tree.toStmt.render = stmt.render := by
  cases stmt with
  | bind s x e => simp only [tree, StmtTree.toStmt, render, Expr.render_toExpr]
  | print s e => simp only [tree, StmtTree.toStmt, render, Expr.render_toExpr]

/-- Programs with the same trees are written alike. -/
theorem Program.render_congr {program program' : Program String}
    (h : program.trees = program'.trees) : program.render = program'.render := by
  have hrender : ∀ p : Program String,
      p.stmts.map Stmt.render = p.trees.map fun tree => tree.toStmt.render := by
    intro p
    simp [trees, Function.comp_def, Stmt.render_toStmt]
  rw [render, render, hrender, hrender, h]

/-- Two programs mean the same: whatever takes the output, it takes the same from both, and both
leave the same values behind, by name. -/
def Program.MeansSame (program program' : Program Symbol) : Prop :=
  ∀ sink, (program.execute sink).1 = (program'.execute sink).1 ∧
    (program.execute sink).2.sink = (program'.execute sink).2.sink ∧
    (program.execute sink).2.store.env.bindings Symbol.name
      = (program'.execute sink).2.store.env.bindings Symbol.name

namespace Program

/-- A program over texts does the same when it is carried over to symbols that have these names. -/
theorem execute_symbols {symbol : String → Symbol} (hname : ∀ x, (symbol x).name = x)
    (named : Program String) (sink : Sink) :
    ((named.map symbol).execute sink).1 = (named.execute sink).1 ∧
      ((named.map symbol).execute sink).2.sink = (named.execute sink).2.sink ∧
      ((named.map symbol).execute sink).2.store.env.bindings Symbol.name
        = (named.execute sink).2.store.env.bindings id := by
  have hinjective : Function.Injective symbol := by
    intro x y hxy
    rw [← hname x, hxy, hname y]
  rcases named.execute_map hinjective sink with ⟨hrefusal, hmachine⟩
  exact ⟨hrefusal, hmachine.sink, hmachine.env.bindings_eq hinjective hname⟩

/-- Programs over texts with the same trees mean the same, whatever symbols they are carried over
to. -/
theorem meansSame_symbols {symbol symbol' : String → Symbol} (hname : ∀ x, (symbol x).name = x)
    (hname' : ∀ x, (symbol' x).name = x) {named named' : Program String}
    (h : named.trees = named'.trees) : (named.map symbol).MeansSame (named'.map symbol') := by
  intro sink
  have hfirst := named.execute_symbols hname sink
  have hsecond := named'.execute_symbols hname' sink
  rw [execute_congr h sink] at hfirst
  exact ⟨hfirst.1.trans hsecond.1.symm, hfirst.2.1.trans hsecond.2.1.symm,
    hfirst.2.2.trans hsecond.2.2.symm⟩

end Program

namespace Context

/-- A parsed program is a program over texts, carried over to symbols that have these names. -/
theorem exists_symbol_parse (ctx : Context) (path : Option String) (input : Input) :
    ∃ symbol : String → Symbol, (∀ x, (symbol x).name = x) ∧
      (ctx.parse path input).value
        = ((ctx.parse path input).value.map Symbol.name).map symbol := by
  let interner := (ctx.openParser path input).context.interner.addAll
    (Parser.ofInput path input).1.program.1.names
  have hvalue : (ctx.parse path input).value
      = (Parser.ofInput path input).1.program.1.map interner.symbol := rfl
  refine ⟨interner.symbol, interner.name_symbol, ?_⟩
  rw [hvalue, Program.map_map_of_leftInverse interner.name_symbol]

/-- Parsed programs with the same trees, by name, mean the same, even if they were parsed in
different contexts. -/
theorem meansSame_of_trees_eq {ctx ctx' : Context} {path path' : Option String}
    {input input' : Input}
    (h : ((ctx.parse path input).value.map Symbol.name).trees
      = ((ctx'.parse path' input').value.map Symbol.name).trees) :
    (ctx.parse path input).value.MeansSame (ctx'.parse path' input').value := by
  rcases ctx.exists_symbol_parse path input with ⟨symbol, hname, hfirst⟩
  rcases ctx'.exists_symbol_parse path' input' with ⟨symbol', hname', hsecond⟩
  rw [hfirst, hsecond]
  exact Program.meansSame_symbols hname hname' h

/-! ## Dumps of accepted sources -/

/-- Nothing is missing from a source that is parsed without a report, and its names can be
spelled. -/
theorem parse_renderable (ctx : Context) (path : Option String) (input : Input)
    (h : ctx.reported path input = []) :
    (∀ stmt ∈ ((ctx.parse path input).value.map Symbol.name).stmts,
        stmt.expr.tree.isWhole = true) ∧
      ∀ x ∈ ((ctx.parse path input).value.map Symbol.name).names, isName x = true := by
  rcases ctx.derived_of_reported_eq_nil path input h with ⟨d⟩
  constructor
  · intro stmt hstmt
    rw [← Stmt.expr_tree]
    exact d.isWhole_of_mem (List.mem_map_of_mem hstmt)
  · intro x hx
    rcases List.mem_flatMap.1 hx with ⟨stmt, hstmt, hx⟩
    rw [← Stmt.names_tree] at hx
    exact input.isName_of_mem_tokens (d.identifier_of_mem_names (List.mem_map_of_mem hstmt) hx)

end Context

/-- What is expected of the dump of a program: parsed in a fresh context, it gives no error, the
same text again, and a program that means the same. -/
def Program.DumpStable (program : Program Symbol) (table : Nat) (path : Option String) : Prop :=
  let again := (Context.empty table).parse path (Input.ofString (program.map Symbol.name).render)
  again.context.errorCount = 0 ∧
    (again.value.map Symbol.name).render = (program.map Symbol.name).render ∧
    again.value.MeansSame program

/-- The dump of a source that is parsed without a report is stable exactly if no expression is
written too deep. -/
theorem Context.dumpStable_iff (ctx : Context) (path : Option String) (input : Input)
    (hclean : ctx.reported path input = []) (table : Nat) (path' : Option String) :
    (ctx.parse path input).value.DumpStable table path' ↔
      ∀ stmt ∈ (ctx.parse path input).value.stmts,
        stmt.expr.tree.writtenDepth ≤ Parse.maxDepth := by
  rcases ctx.parse_renderable path input hclean with ⟨hwhole, hnames⟩
  rcases (empty table).reported_render path' hwhole hnames with ⟨hiff, htrees⟩
  rw [Program.writtenDepth_le_iff Symbol.name, ← hiff]
  constructor
  · intro hstable
    exact (errorCount_parse_empty path' _ table).1 hstable.1
  · intro hagain
    have hsame := htrees hagain
    exact ⟨(errorCount_parse_empty path' _ table).2 hagain, Program.render_congr hsame,
      meansSame_of_trees_eq hsame⟩

/-! ## A dump that is not stable -/

/-- The tokens of a one behind `n` signs. -/
def signsKinds (n : Nat) : List (Kind String) := List.replicate n .minus ++ [.int 1]

/-- A one behind signs is derived as an operand. -/
def signsDerivation : (n : Nat) → Derivation .unary (signsKinds n) (Expr.signs n).tree
  | 0 => .ofPrimary (.int 1)
  | n + 1 => .minus (signsDerivation n)

theorem demand_signsDerivation (n : Nat) : (signsDerivation n).demand = n := by
  induction n with
  | zero => rfl
  | succ n ih =>
    have hstep : (signsDerivation (n + 1)).demand = 1 + (signsDerivation n).demand := rfl
    rw [hstep, ih, Nat.add_comm]

/-- The source that prints a one behind `n` signs. -/
def signsSource (n : Nat) : Input :=
  .ofString (.ofList (spaced (.keywordPrint :: (signsKinds n ++ [.semicolon]))))

/-- As many signs as the limit allows are parsed without a report. -/
theorem Context.parse_signsSource (ctx : Context) (path : Option String) {n : Nat}
    (h : n ≤ Parse.maxDepth) :
    ctx.reported path (signsSource n) = [] ∧
      ((ctx.parse path (signsSource n)).value.map Symbol.name).trees
        = [.print (Expr.signs n).tree] := by
  let d : ProgramDerivation ((.keywordPrint :: (signsKinds n ++ [.semicolon])) ++ [])
      [.print (Expr.signs n).tree] := .cons (.print (.ofTerm (.ofUnary (signsDerivation n)))) .nil
  have hdemands : d.demands = [n] := congrArg (fun m => [m]) (demand_signsDerivation n)
  have hspell : ∀ kind ∈ (Kind.keywordPrint :: (signsKinds n ++ [.semicolon])) ++ [],
      kind.isSpellable = true := by
    intro kind hkind
    simp only [signsKinds, List.append_nil, List.mem_cons, List.mem_append, List.mem_replicate,
      List.not_mem_nil, or_false] at hkind
    rcases hkind with rfl | (⟨-, rfl⟩ | rfl) | rfl <;> rfl
  have hparse := ctx.parse_spaced path d hspell (by simpa [hdemands] using h) String.toList_ofList
  rw [List.append_nil] at hparse
  exact hparse.2.2

/-- The boundary for signs: the dump of 256 signs is stable, that of 257 is not, though the source
is parsed without a report. -/
theorem dumpStable_signs :
    (Context.empty 0).reported none (signsSource 256) = [] ∧
      ((Context.empty 0).parse none (signsSource 256)).value.DumpStable 1 none ∧
      (Context.empty 0).reported none (signsSource 257) = [] ∧
      ¬ ((Context.empty 0).parse none (signsSource 257)).value.DumpStable 1 none := by
  have hfits : (256 : Nat) ≤ Parse.maxDepth ∧ 257 ≤ Parse.maxDepth := by decide
  rcases (Context.empty 0).parse_signsSource none hfits.1 with ⟨hclean, htrees⟩
  rcases (Context.empty 0).parse_signsSource none hfits.2 with ⟨hclean', htrees'⟩
  refine ⟨hclean, ?_, hclean', ?_⟩
  · rw [(Context.empty 0).dumpStable_iff none _ hclean, Program.writtenDepth_le_iff Symbol.name,
      htrees]
    simp [StmtTree.expr, Parse.maxDepth]
  · rw [(Context.empty 0).dumpStable_iff none _ hclean', Program.writtenDepth_le_iff Symbol.name,
      htrees']
    simp [StmtTree.expr, Parse.maxDepth]

end LetCalc
