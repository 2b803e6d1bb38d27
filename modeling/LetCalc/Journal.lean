import LetCalc.Input.Glyph
import LetCalc.Problem

/-!
# Journals

Scanning, parsing and running leave a journal behind: a list of records in the order in which the
things recorded came about.  The tokens of a source and the problems found in it are read off the
journal.

Main results:

- Definitions `Record.token?` and `Record.finding?`: the tokens and the problems.
- Definition `Record.message`: the wording of a record.
-/

namespace LetCalc

/-- How much detail a record is. -/
inductive Level where
  | debug
  | trace
deriving DecidableEq, Repr

/-- Something worth recording about a run. -/
inductive Record where
  /-- A token came into view, or the end of the file. -/
  | view (view : View String)
  /-- A problem was found. -/
  | finding (finding : Finding)
  /-- A byte sequence that is not UTF-8 came into view. -/
  | fault (pos : Pos) (fault : Fault)
  /-- A program was parsed: its number of statements, and of the errors known by then. -/
  | parsed (statements errors : Nat)
  /-- A variable was read before it had a value, and got zero. -/
  | unbound (name : String)
  /-- A statement gave a variable a value. -/
  | bound (name : String) (value : UInt64)
deriving DecidableEq, Repr

/-- The records of a run in order. -/
abbrev Journal := List Record

namespace Record

/-- Tokens and assignments are recorded in full detail only. -/
def level : Record → Level
  | view .. | bound .. => .trace
  | finding .. | fault .. | parsed .. | unbound .. => .debug

/-- What came into view, a token or the end of the file. -/
def view? : Record → Option (View String)
  | view v => some v
  | _ => none

/-- The token that came into view. -/
def token? (record : Record) : Option (Token String) := record.view?.bind View.token?

/-- The problem that was found. -/
def finding? : Record → Option Finding
  | finding f => some f
  | _ => none

/-- The wording of a record about a source with the given label. -/
def message (path : Option String) : Record → String
  | view v => Loc.text ⟨path, v.span⟩ ++ ": token '" ++ Kind.describe v.kind ++ "'"
  | finding f => (f.diagnostic path).text
  | fault pos reason => Loc.text ⟨path, .single pos⟩ ++ ": " ++ reason.message
  | parsed statements errors =>
    "parsed " ++ statements.repr ++ " statement(s), " ++ errors.repr ++ " error(s) so far"
  | unbound name => "reading unbound variable '" ++ name ++ "', binding it to 0"
  | bound name value => "let " ++ name ++ " = " ++ value.toNat.repr

end Record

namespace Journal

/-- The tokens that came into view. -/
def tokens (journal : Journal) : List (Token String) := journal.filterMap Record.token?

/-- The problems that were found. -/
def findings (journal : Journal) : List Finding := journal.filterMap Record.finding?

/-- The records of a level; full detail is all of them. -/
def upTo (level : Level) (journal : Journal) : Journal :=
  match level with
  | .trace => journal
  | .debug => journal.filter (·.level = .debug)

@[simp]
theorem tokens_append (j k : Journal) : tokens (j ++ k) = tokens j ++ tokens k :=
  List.filterMap_append

@[simp]
theorem findings_append (j k : Journal) : findings (j ++ k) = findings j ++ findings k :=
  List.filterMap_append

theorem findings_map_finding (found : List Finding) : findings (found.map .finding) = found := by
  simp [findings, List.filterMap_map, Function.comp_def, Record.finding?]

end Journal

end LetCalc
