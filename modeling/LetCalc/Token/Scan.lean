import LetCalc.Journal
import LetCalc.Text.Blank
import LetCalc.Text.Letter
import LetCalc.Token.Numeral

/-!
# Scanning

A text is scanned from left to right in one pass.  At each glyph the scanner is in a phase: between
tokens, inside a number, a word or a comment, or right after a token of one character.  A glyph
extends the phase if it can; otherwise the phase is completed, which may yield a token, and the
glyph starts a new one.  So every token is as long as it can be.

A glyph comes into view when the one before it has been taken, and only then is the token before it
known to be complete.  The journal of a scan keeps that order.

Main results:

- Definitions `Phase.extend?`, `Phase.complete` and `Phase.start`: the three cases of a step.
- Definition `Text.scan`: the journal of a whole text, which ends with the end of the file.
- Theorem `scanFrom_acc`: the records of a scan do not depend on those before it.
-/

namespace LetCalc

/-- The place after a glyph. -/
def Pos.after (p : Pos) : Glyph → Pos
  | .char c => p.advance c
  | .malformed _ => p.right

/-! ## Phases -/

/-- The part of a token of several characters that has been read. -/
structure Run where
  span : Span
  text : String
deriving DecidableEq, Repr

namespace Run

/-- A run of one character. -/
def single (p : Pos) (c : Char) : Run := ⟨.single p, c.toString⟩

/-- The run with one more character. -/
def push (run : Run) (p : Pos) (c : Char) : Run := ⟨⟨run.span.first, p⟩, run.text.push c⟩

end Run

/-- What the scanner is in the middle of. -/
inductive Phase where
  /-- Between tokens. -/
  | gap
  /-- Right after a token of one character. -/
  | mark (kind : Kind String) (pos : Pos)
  /-- Right after a slash, which may turn out to open a comment. -/
  | slash (pos : Pos)
  /-- Inside a number. -/
  | number (run : Run) (numeral : Numeral)
  /-- Inside a word. -/
  | word (run : Run)
  /-- Inside a comment that ends with the line. -/
  | lineComment
  /-- Inside a comment that opened at `pos`; `star` says that the last glyph was a star which may
  close it. -/
  | blockComment (pos : Pos) (star : Bool)
deriving DecidableEq, Repr

namespace Phase

/-- The phase with the glyph at `p` in it, if the glyph belongs to it. -/
def extend? (p : Pos) (g : Glyph) : Phase → Option Phase
  | gap | mark .. => none
  | slash pos =>
    match g with
    | .char '/' => some lineComment
    | .char '*' => some (blockComment pos false)
    | _ => none
  | number run numeral =>
    match g with
    | .char c => if c.isDigit then some (number (run.push p c) (numeral.push c)) else none
    | .malformed _ => none
  | word run =>
    match g with
    | .char c => if continuesWord c then some (word (run.push p c)) else none
    | .malformed _ => none
  | lineComment => if g = .char '\n' then none else some lineComment
  | blockComment pos star =>
    if star && g = .char '/' then some gap else some (blockComment pos (g = .char '*'))

/-- What is recorded when nothing more belongs to the phase. -/
def complete : Phase → Journal
  | gap | lineComment => []
  | mark kind pos => [.view (.ofToken ⟨kind, .single pos⟩)]
  | slash pos => [.view (.ofToken ⟨.slash, .single pos⟩)]
  | number run numeral =>
    let token := Record.view (.ofToken ⟨.int numeral.value, run.span⟩)
    if numeral.fits then [token] else [.finding ⟨run.span, .overflow run.text⟩, token]
  | word run => [.view (.ofToken ⟨Kind.ofWord run.text, run.span⟩)]
  | blockComment pos _ => [.finding ⟨.single pos, .openComment⟩]

/-- The phase that a glyph at `p` starts, and what is recorded about the glyph. -/
def start (p : Pos) : Glyph → Journal × Phase
  | .malformed _ => ([.finding ⟨.single p, .malformed⟩], gap)
  | .char c =>
    if isBlank c then ([], gap)
    else
      match Kind.ofChar? c with
      | some kind => ([], mark kind p)
      | none =>
        if c = '/' then ([], slash p)
        else if c.isDigit then ([], number (.single p c) (Numeral.zero.push c))
        else if startsWord c then ([], word (.single p c))
        else ([.finding ⟨.single p, .strayChar c⟩], gap)

/-- One step of the scanner: a glyph extends the phase, or completes it and starts another. -/
def step (p : Pos) (g : Glyph) (phase : Phase) : Journal × Phase :=
  match phase.extend? p g with
  | some phase' => ([], phase')
  | none => (phase.complete ++ (start p g).1, (start p g).2)

end Phase

/-! ## Scanning a text -/

/-- What is recorded when the rest of a text comes into view at `p`: a byte sequence that is not
UTF-8, or the failure that cut the text. -/
def arrival (failure : Option String) (p : Pos) : List Glyph → Journal
  | .char _ :: _ => []
  | .malformed fault :: _ => [.fault p fault]
  | [] =>
    match failure with
    | some reason => [.finding ⟨.single p, .readFailure reason⟩]
    | none => []

/-- Scans the rest of a text, which is in view at `p`, after the records already made. -/
def scanFrom (failure : Option String) (p : Pos) (phase : Phase) (acc : Array Record) :
    List Glyph → Array Record
  | [] => acc ++ (phase.complete ++ [.view (.eof (.single p))])
  | g :: rest =>
    scanFrom failure (p.after g) (phase.step p g).2
      (acc ++ (phase.step p g).1 ++ arrival failure (p.after g) rest) rest

/-- The records of a scan do not depend on those before it. -/
theorem scanFrom_acc (failure : Option String) (p : Pos) (phase : Phase) (acc : Array Record)
    (glyphs : List Glyph) :
    (scanFrom failure p phase acc glyphs).toList
      = acc.toList ++ (scanFrom failure p phase #[] glyphs).toList := by
  induction glyphs generalizing p phase acc with
  | nil => simp [scanFrom]
  | cons g rest ih =>
    rw [scanFrom, ih, scanFrom, ih _ _ (#[] ++ _ ++ _)]
    simp

namespace Text

/-- The place after the last glyph, where the file ends. -/
def eof (text : Text) : Span := .single (text.glyphs.foldl Pos.after .start)

/-- What is recorded when the text first comes into view. -/
def opening (text : Text) : Journal := arrival text.failure .start text.glyphs

/-- What is recorded from then on, token after token and last the end of the file. -/
def scan (text : Text) : Journal :=
  (scanFrom text.failure .start .gap #[] text.glyphs).toList

end Text

end LetCalc
