import LetCalc.Proofs.Program.Source
import LetCalc.Proofs.Token.Places

/-!
# States of a parser

A parser has one token in view and the rest of a scan behind it.  At first, and after any number of
readings, what is in view and what is to come are the tokens that have not been read, and last the
end of the file.  So the token in view is always the first of those that a reading left.

Main results:

- Definition `Parser.Orderly`: what is in view and to come are the tokens not yet read.
- Theorem `Parser.Orderly.read`: a reading leaves the parser in view of the tokens that it leaves.
- Theorem `Parser.Reachable.orderly`: all states that can come about are like this.
-/

namespace LetCalc

/-! ## Splitting journals -/

namespace Journal

/-- The tokens of a journal are those that came into view. -/
theorem tokens_eq_shown (journal : Journal) :
    journal.tokens = journal.shown.filterMap View.token? := by
  rw [shown, List.filterMap_filterMap]
  rfl

@[simp]
theorem shown_nil : shown [] = [] := rfl

theorem shown_cons_none {record : Record} (h : record.view? = none) (rest : Journal) :
    shown (record :: rest) = shown rest :=
  List.filterMap_cons_none h

theorem shown_cons_some {record : Record} {v : View String} (h : record.view? = some v)
    (rest : Journal) : shown (record :: rest) = v :: shown rest :=
  List.filterMap_cons_some h

theorem length_shown (journal : Journal) : journal.shown.length = journal.views :=
  List.length_filterMap_eq_countP

/-- A journal that is split behind a view falls into the views up to it and those behind it. -/
theorem shown_splitViews (n : Nat) (journal : Journal) :
    (journal.splitViews n).1.shown = journal.shown.take n ∧
      (journal.splitViews n).2.shown = journal.shown.drop n := by
  induction journal generalizing n with
  | nil => simp
  | cons record rest ih =>
    cases n with
    | zero => simp
    | succ n =>
      rw [splitViews_cons]
      cases hview : record.view? with
      | none => simp [ih, shown_cons_none hview]
      | some v => simp [ih, shown_cons_some hview]

/-- What is in view after a journal is the last that came into view. -/
theorem lastView_eq (ahead : View String) (journal : Journal) :
    journal.lastView ahead = journal.shown.getLastD ahead := by
  induction journal generalizing ahead with
  | nil => rfl
  | cons record rest ih =>
    have hstep : lastView ahead (record :: rest) = lastView (record.view?.getD ahead) rest := rfl
    rw [hstep, ih]
    cases hview : record.view? with
    | none => rw [shown_cons_none hview, Option.getD_none]
    | some v => rw [shown_cons_some hview, Option.getD_some, List.getLastD_cons]

end Journal

/-- Moving on by `n` leaves the last of the first `n` in front. -/
theorem getLastD_take_cons_drop {α : Type} (a : α) {l : List α} {n : Nat} (h : n ≤ l.length) :
    (l.take n).getLastD a :: l.drop n = (a :: l).drop n := by
  induction n generalizing a l with
  | zero => simp
  | succ n ih =>
    cases l with
    | nil => cases h
    | cons b l =>
      rw [List.take_succ_cons, List.getLastD_cons, List.drop_succ_cons, List.drop_succ_cons]
      exact ih b (Nat.le_of_succ_le_succ h)

/-! ## Readings -/

namespace Parser

/-- What is in view, and what will come into view. -/
def views (parser : Parser) : List (View String) := parser.ahead :: parser.pending.shown

/-- What is in view and to come are these tokens, and last the end of the file. -/
def Shows (parser : Parser) (tokens : Tokens) : Prop :=
  parser.views = tokens.map .ofToken ++ [.eof parser.eof]

/-- What is in view and to come are the tokens not yet read. -/
def Orderly (parser : Parser) : Prop := parser.Shows parser.tokens

variable {parser : Parser} {tokens : Tokens}

theorem Shows.tokens_eq (h : parser.Shows tokens) : parser.tokens = tokens := by
  have hviews : parser.tokens = parser.views.filterMap View.token? := by
    rw [Parser.tokens, Journal.tokens_eq_shown, views, List.filterMap_cons]
    cases parser.ahead.token? <;> rfl
  have htoken : View.token? ∘ View.ofToken = (some : Token String → _) := rfl
  rw [hviews, h, List.filterMap_append, List.filterMap_map, htoken, List.filterMap_some]
  exact List.append_nil _

theorem Shows.orderly (h : parser.Shows tokens) : parser.Orderly := by
  rwa [Orderly, h.tokens_eq]

/-- The first of the tokens is in view. -/
theorem Orderly.ahead_eq (h : parser.Orderly) : parser.ahead = parser.tokens.view parser.eof := by
  have hhead := congrArg List.head? h
  rw [views, List.head?_cons] at hhead
  cases htokens : parser.tokens with
  | nil => simpa [htokens, Tokens.view] using hhead
  | cons token rest => simpa [htokens, Tokens.view] using hhead

/-- After a reading the tokens that it leaves are in view and to come. -/
theorem Orderly.read {α : Type} (h : parser.Orderly) (f : Span → Tokens → Parsed α)
    (hsuffix : (f parser.eof parser.tokens).rest <:+ parser.tokens) :
    (parser.read f).2.2.Shows (f parser.eof parser.tokens).rest := by
  rcases hsuffix with ⟨used, hused⟩
  have hlength := congrArg List.length hused
  rw [List.length_append] at hlength
  have hcount : parser.tokens.length - (f parser.eof parser.tokens).rest.length = used.length := by
    omega
  have hviews : parser.ahead :: parser.pending.shown
      = used.map .ofToken ++ ((f parser.eof parser.tokens).rest.map .ofToken
        ++ [.eof parser.eof]) := by
    rw [← List.append_assoc, ← List.map_append, hused]
    exact h
  have hbound : used.length ≤ parser.pending.shown.length := by
    have hsize := congrArg List.length hviews
    simp only [List.length_cons, List.length_append, List.length_map, List.length_nil] at hsize
    omega
  have hdrop := congrArg (List.drop used.length) hviews
  rw [← getLastD_take_cons_drop _ hbound, List.drop_left' (List.length_map ..)] at hdrop
  rcases parser.pending.shown_splitViews used.length with ⟨hfront, hback⟩
  simp only [Shows, views, Parser.read, hcount]
  rw [Journal.lastView_eq, hfront, hback]
  exact hdrop

/-- A parser at the start of an input is orderly. -/
theorem orderly_ofInput (path : Option String) (input : Input) :
    (ofInput path input).1.Orderly := by
  rcases ofInput_cases path input with ⟨before, v, after, hscan, hbefore, hparser⟩
  rcases input.text.scan_shown with ⟨body, hends, hbody⟩
  have hnone : Journal.shown before = [] := by
    rw [← List.length_eq_zero_iff, Journal.length_shown, hbefore]
  have hviews : Journal.shown (before ++ .view v :: after)
      = Journal.shown (body ++ [.view (.eof input.text.eof)]) :=
    congrArg Journal.shown (hscan.symm.trans hends)
  rw [Journal.shown_append, hnone, List.nil_append, Journal.shown_append, hbody] at hviews
  apply Shows.orderly
  rw [hparser]
  exact hviews

/-- States of a parser that can come about: at the start of an input, and after reading an
expression or a program. -/
inductive Reachable : Parser → Prop
  | ofInput (path : Option String) (input : Input) : Reachable (ofInput path input).1
  | expression {parser : Parser} (h : Reachable parser) : Reachable parser.expression.2.2
  | program {parser : Parser} (h : Reachable parser) : Reachable parser.program.2.2

theorem Orderly.expression (h : parser.Orderly) : parser.expression.2.2.Shows
    (Parse.expression parser.eof Parse.maxDepth .bottom .expression parser.tokens).rest :=
  h.read (fun eof => Parse.expression eof Parse.maxDepth .bottom .expression)
    (Parse.expression_rest_suffix ..)

/-- All states that can come about are orderly. -/
theorem Reachable.orderly (h : parser.Reachable) : parser.Orderly := by
  induction h with
  | ofInput path input => exact orderly_ofInput path input
  | expression _ ih => exact ih.expression.orderly
  | program _ ih =>
    refine (ih.read (Parse.program _) ?_).orderly
    rw [Parse.program_rest]
    exact List.nil_suffix

end Parser

end LetCalc
