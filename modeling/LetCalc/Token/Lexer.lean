import LetCalc.Token.Scan

/-!
# Tokens one at a time

A lexer hands out the scan of a source token by token, each with the records made on the way to
it.  Once the end of the file has been handed out, it is handed out again at every call.
-/

namespace LetCalc

/-- The part of a scan that has not been handed out. -/
structure Lexer where
  /-- The label of the source. -/
  path : Option String
  /-- Where the file ends. -/
  eof : Span
  /-- The records to come. -/
  pending : Journal
deriving DecidableEq, Repr

namespace Lexer

/-- A lexer at the start of an input, and what is recorded when the input first comes into view. -/
def ofInput (path : Option String) (input : Input) : Lexer × Journal :=
  let text := input.text
  (⟨path, text.eof, text.scan⟩, text.opening)

/-- The next token, or the end of the file; what is recorded up to it; and the lexer after it. -/
def next (lexer : Lexer) : View String × Journal × Lexer :=
  match lexer.pending.span (·.view?.isNone) with
  | (before, .view v :: after) => (v, before ++ [.view v], { lexer with pending := after })
  | (before, _) =>
    let v := View.eof lexer.eof
    (v, before ++ [.view v], { lexer with pending := [] })

end Lexer

end LetCalc
