import LetCalc.Program.Parse
import LetCalc.Token.Lexer

/-!
# Parsing on demand

A parser has one token in view and the rest of a scan behind it.  It reads an expression or a
program from there and leaves what follows.

Findings of the parser concern the token in view, so they take their place in the journal right
after the record of this token, before any record of the next one.

Main results:

- Definition `weave`: the journal of a scan with the findings of a parser in their places.
- Theorem `findings_weave`: weaving neither loses nor adds a finding.
- Definitions `Parser.expression` and `Parser.program`: what can be read.
-/

namespace LetCalc

/-! ## Findings in their places -/

/-- A journal in the making, and the findings that have no place in it yet. -/
structure Weaving where
  records : Array Record
  findings : List Finding

namespace Weaving

/-- Files the findings that concern the token at `span`, which has come into view. -/
def file (w : Weaving) (span : Span) : Weaving where
  records := w.records ++ (w.findings.takeWhile (·.span = span)).map Record.finding
  findings := w.findings.dropWhile (·.span = span)

/-- Files a record of the scan, and the findings that concern it if it is a view. -/
def push (w : Weaving) (record : Record) : Weaving :=
  let w := { w with records := w.records.push record }
  match record.view? with
  | some v => w.file v.span
  | none => w

/-- The journal with all findings in it. -/
def finish (w : Weaving) : Journal := w.records.toList ++ w.findings.map Record.finding

end Weaving

/-- The journal of reading on from the token at `ahead`: the records of the scan, each view
followed by the findings that concern it. -/
def weave (ahead : Span) (findings : List Finding) (scanned : Journal) : Journal :=
  (scanned.foldl Weaving.push (Weaving.file ⟨#[], findings⟩ ahead)).finish

namespace Weaving

/-- All findings of a journal in the making: those in their places, then the others. -/
def allFindings (w : Weaving) : List Finding := Journal.findings w.records.toList ++ w.findings

/-- Filing moves findings to their places and changes nothing else. -/
theorem allFindings_file (w : Weaving) (span : Span) :
    (w.file span).allFindings = w.allFindings := by
  simp only [allFindings, file, Array.toList_appendList, Journal.findings_append,
    Journal.findings_map_finding, List.append_assoc, List.takeWhile_append_dropWhile]

/-- A record of the scan adds its own finding, if it is one. -/
theorem allFindings_push (w : Weaving) (record : Record) :
    (w.push record).allFindings.Perm (record.finding?.toList ++ w.allFindings) := by
  have hpush : (w.push record).allFindings
      = Journal.findings w.records.toList ++ (record.finding?.toList ++ w.findings) := by
    unfold push
    split
    · next v hv =>
      rw [allFindings_file]
      cases record <;> simp_all [allFindings, Journal.findings, Record.finding?, Record.view?]
    · cases record <;> simp [allFindings, Journal.findings, Record.finding?]
  rw [hpush, allFindings, ← List.append_assoc, ← List.append_assoc]
  exact List.perm_append_comm.append_right w.findings

private theorem allFindings_foldl_push (scanned : Journal) (w : Weaving) :
    (scanned.foldl push w).allFindings.Perm (scanned.findings ++ w.allFindings) := by
  induction scanned generalizing w with
  | nil => exact List.Perm.refl _
  | cons record rest ih =>
    have hcons : Journal.findings (record :: rest)
        = record.finding?.toList ++ Journal.findings rest := by
      simp only [Journal.findings, List.filterMap_cons]
      split <;> simp_all
    rw [hcons]
    refine (ih (w.push record)).trans ?_
    refine ((allFindings_push w record).append_left _).trans ?_
    rw [← List.append_assoc]
    exact List.perm_append_comm.append_right w.allFindings

end Weaving

/-- Weaving neither loses nor adds a finding. -/
theorem findings_weave (ahead : Span) (findings : List Finding) (scanned : Journal) :
    (weave ahead findings scanned).findings.Perm (scanned.findings ++ findings) := by
  have hfinish : ∀ w : Weaving, w.finish.findings = w.allFindings := fun w => by
    simp only [Weaving.finish, Weaving.allFindings, Journal.findings_append,
      Journal.findings_map_finding]
  have hstart : (Weaving.file ⟨#[], findings⟩ ahead).allFindings = findings :=
    Weaving.allFindings_file ⟨#[], findings⟩ ahead
  rw [weave, hfinish]
  have h := Weaving.allFindings_foldl_push scanned (Weaving.file ⟨#[], findings⟩ ahead)
  rwa [hstart] at h

/-! ## Moving on -/

namespace Journal

/-- Splits a journal behind its `n`-th view, after the records already split off. -/
def splitViewsFrom (n : Nat) (before : Array Record) : Journal → Array Record × Journal
  | [] => (before, [])
  | record :: rest =>
    match n with
    | 0 => (before, record :: rest)
    | n + 1 =>
      splitViewsFrom (if record.view?.isSome then n else n + 1) (before.push record) rest

/-- Splits a journal behind its `n`-th view. -/
def splitViews (n : Nat) (journal : Journal) : Journal × Journal :=
  let (before, after) := splitViewsFrom n #[] journal
  (before.toList, after)

/-- The records already split off stay in front. -/
private theorem splitViewsFrom_acc (n : Nat) (before : Array Record) (journal : Journal) :
    splitViewsFrom n before journal
      = (before ++ (splitViewsFrom n #[] journal).1, (splitViewsFrom n #[] journal).2) := by
  induction journal generalizing n before with
  | nil => simp [splitViewsFrom]
  | cons record rest ih =>
    cases n with
    | zero => simp [splitViewsFrom]
    | succ n =>
      rw [splitViewsFrom, splitViewsFrom, ih, ih _ (#[].push record)]
      simp

@[simp]
theorem splitViews_nil (n : Nat) : splitViews n [] = ([], []) := rfl

@[simp]
theorem splitViews_zero (journal : Journal) : journal.splitViews 0 = ([], journal) := by
  cases journal <;> rfl

/-- A record is split off, and if it is a view there is one less to go. -/
theorem splitViews_cons (n : Nat) (record : Record) (rest : Journal) :
    splitViews (n + 1) (record :: rest)
      = (record :: (splitViews (if record.view?.isSome then n else n + 1) rest).1,
        (splitViews (if record.view?.isSome then n else n + 1) rest).2) := by
  rw [splitViews, splitViewsFrom, splitViewsFrom_acc]
  simp [splitViews]

/-- What is in view after the journal, given what was in view before. -/
def lastView (ahead : View String) (journal : Journal) : View String :=
  journal.foldl (fun v record => record.view?.getD v) ahead

end Journal

/-! ## Parsers -/

/-- A source that has been read up to some token. -/
structure Parser where
  /-- The label of the source. -/
  path : Option String
  /-- Where the file ends. -/
  eof : Span
  /-- What is in view. -/
  ahead : View String
  /-- The records of the scan behind it. -/
  pending : Journal
deriving DecidableEq, Repr

namespace Parser

/-- A parser with the first token of an input in view, and what is recorded up to it. -/
def ofInput (path : Option String) (input : Input) : Parser × Journal :=
  let (lexer, opening) := Lexer.ofInput path input
  let (ahead, records, lexer) := lexer.next
  (⟨path, lexer.eof, ahead, lexer.pending⟩, opening ++ records)

/-- The tokens to be read, the one in view first. -/
def tokens (parser : Parser) : Tokens := parser.ahead.token?.toList ++ parser.pending.tokens

/-- Reads with the given function; also gives the journal of doing so, and the parser after it. -/
def read {α : Type} (parser : Parser) (f : Span → Tokens → Parsed α) : α × Journal × Parser :=
  let tokens := parser.tokens
  let parsed := f parser.eof tokens
  let (scanned, pending) := parser.pending.splitViews (tokens.length - parsed.rest.length)
  (parsed.value, weave parser.ahead.span parsed.findings scanned,
    { parser with ahead := scanned.lastView parser.ahead, pending })

/-- Reads an expression and leaves what follows it. -/
def expression (parser : Parser) : Expr String × Journal × Parser :=
  parser.read fun eof => Parse.expression eof Parse.maxDepth .bottom .expression

/-- Reads a program to the end of the file. -/
def program (parser : Parser) : Program String × Journal × Parser :=
  parser.read (Parse.program parser.path)

end Parser

end LetCalc
