import LetCalc.Program.Parser
import LetCalc.Symbol

/-!
# Contexts

A context is shared by all that reads sources for one purpose: it has one table of names and
collects the diagnostics of all sources in the order in which they are made.

Main results:

- Definition `Context.parse`: a source as a program over the symbols of a context.
- Theorem `Context.diagnostics_record`: recording keeps the diagnostics made before.
-/

namespace LetCalc

/-- A table of names and the diagnostics made so far. -/
structure Context where
  interner : Interner
  diagnostics : Array Diagnostic

/-- A result obtained in a context: with what was recorded, and the context after it. -/
structure Outcome (α : Type) where
  value : α
  journal : Journal
  context : Context

namespace Context

/-- A context with an empty table of the given number, and no diagnostics. -/
def empty (table : Nat) : Context := ⟨.empty table, #[]⟩

/-- The number of errors known so far. -/
def errorCount (ctx : Context) : Nat := ctx.diagnostics.size

/-- Adds a diagnostic. -/
def report (ctx : Context) (diagnostic : Diagnostic) : Context :=
  { ctx with diagnostics := ctx.diagnostics.push diagnostic }

/-- Adds the findings of a journal about the source with the given label. -/
def record (ctx : Context) (path : Option String) (journal : Journal) : Context :=
  { ctx with
    diagnostics := ctx.diagnostics ++ journal.findings.map (Finding.diagnostic path) }

/-- The symbol of a name in this context. -/
def intern (ctx : Context) (name : String) : Symbol × Context :=
  let (symbol, interner) := ctx.interner.intern name
  (symbol, { ctx with interner })

/-! ## Reading tokens -/

/-- Starts to read tokens from an input. -/
def openLexer (ctx : Context) (path : Option String) (input : Input) : Outcome Lexer :=
  let (lexer, journal) := Lexer.ofInput path input
  ⟨lexer, journal, ctx.record path journal⟩

/-- Reads the next token. -/
def lex (ctx : Context) (lexer : Lexer) : Outcome (View Symbol × Lexer) :=
  let (view, journal, lexer) := lexer.next
  let (view, interner) := ctx.interner.internView view
  ⟨(view, lexer), journal, { ctx with interner }.record lexer.path journal⟩

/-! ## Reading programs -/

/-- Starts to parse an input. -/
def openParser (ctx : Context) (path : Option String) (input : Input) : Outcome Parser :=
  let (parser, journal) := Parser.ofInput path input
  ⟨parser, journal, ctx.record path journal⟩

/-- Parses an expression and leaves what follows it. -/
def parseExpression (ctx : Context) (parser : Parser) : Outcome (Expr Symbol × Parser) :=
  let (e, journal, parser) := parser.expression
  let (e, interner) := ctx.interner.internExpr e
  ⟨(e, parser), journal, { ctx with interner }.record parser.path journal⟩

/-- Parses a program to the end of the file, and records its size. -/
def parseProgram (ctx : Context) (parser : Parser) : Outcome (Program Symbol × Parser) :=
  let (program, journal, parser) := parser.program
  let (program, interner) := ctx.interner.internProgram program
  let ctx := { ctx with interner }.record parser.path journal
  ⟨(program, parser), journal ++ [.parsed program.stmts.length ctx.errorCount], ctx⟩

/-- Parses a whole input as a program. -/
def parse (ctx : Context) (path : Option String) (input : Input) : Outcome (Program Symbol) :=
  let opened := ctx.openParser path input
  let parsed := opened.context.parseProgram opened.value
  ⟨parsed.value.1, opened.journal ++ parsed.journal, parsed.context⟩

/-- Recording keeps the diagnostics made before. -/
theorem diagnostics_record (ctx : Context) (path : Option String) (journal : Journal) :
    (ctx.record path journal).diagnostics.toList
      = ctx.diagnostics.toList ++ journal.findings.map (Finding.diagnostic path) := by
  simp [record]

end Context

end LetCalc
