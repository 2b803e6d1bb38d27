import LetCalc.Context
import LetCalc.Proofs.Input.Slices
import LetCalc.Proofs.Program.Grammar
import LetCalc.Proofs.Program.Reading
import LetCalc.Proofs.Token.Spelling
import Mathlib.Data.List.TakeDrop
import Mathlib.Data.List.TakeWhile

/-!
# Parsing a source

Parsing a source in a context amounts to scanning it and reading the list of its tokens: the
diagnostics are those of the scanner and those of the reader, in some order, and the program is the
one that was read, over the symbols of the context.

Main results:

- Theorem `Context.findings_parse`: what parsing finds is what scanning and reading find.
- Theorem `Context.reported_eq_nil_iff`: when parsing reports nothing.
- Theorem `Context.map_name_parse`: the parsed program is the one that was read.
-/

namespace LetCalc

/-! ## Views -/

namespace Journal

/-- The number of views in a journal. -/
def views (journal : Journal) : Nat := journal.countP (·.view?.isSome)

theorem views_cons (record : Record) (rest : Journal) :
    views (record :: rest) = views rest + if record.view?.isSome then 1 else 0 :=
  List.countP_cons

/-- Before the end of the file every view is a token. -/
theorem Spelled.views_eq {journal : Journal} (h : journal.Spelled) :
    journal.views = journal.tokens.length := by
  induction journal with
  | nil => rfl
  | cons record rest ih =>
    have hrest : Spelled rest := fun v hv => h v (List.mem_cons_of_mem _ hv)
    cases record with
    | view v =>
      rcases h v (List.mem_cons_self ..) with ⟨kind, hkind, -⟩
      have htoken : Record.token? (.view v) = some ⟨kind, v.span⟩ := by
        simp [Record.token?, Record.view?, View.token?, hkind]
      rw [tokens, List.filterMap_cons_some htoken, List.length_cons, views_cons]
      exact congrArg (· + 1) (ih hrest)
    | finding | fault | parsed | unbound | bound => exact ih hrest

theorem tokens_eq_nil_of_views_eq_zero {journal : Journal} (h : journal.views = 0) :
    journal.tokens = [] := by
  rw [views, List.countP_eq_zero] at h
  rw [tokens, List.filterMap_eq_nil_iff]
  intro record hrecord
  have hnone : record.view? = none := by simpa using h record hrecord
  simp [Record.token?, hnone]

/-- A journal is split behind its last record if that is the last of the views asked for. -/
theorem splitViews_of_views_lt {n : Nat} {body : Journal} {v : View String}
    (h : body.views < n) :
    splitViews n (body ++ [.view v]) = (body ++ [.view v], []) := by
  induction body generalizing n with
  | nil =>
    rcases Nat.exists_eq_add_one_of_ne_zero (Nat.ne_zero_of_lt h) with ⟨less, rfl⟩
    rw [List.nil_append, splitViews_cons, splitViews_nil]
  | cons record rest ih =>
    rcases Nat.exists_eq_add_one_of_ne_zero (Nat.ne_zero_of_lt h) with ⟨less, rfl⟩
    have hless : views rest < if record.view?.isSome then less else less + 1 := by
      rw [views_cons] at h
      split at h <;> simp_all
    rw [List.cons_append, splitViews_cons, ih hless]

end Journal

/-! ## Tokens and findings of a source -/

namespace Input

/-- The tokens of a source. -/
def tokens (input : Input) : Tokens := input.text.scan.tokens

/-- What the scanner finds in a source. -/
def scanFindings (input : Input) : List Finding :=
  input.text.opening.findings ++ input.text.scan.findings

/-- The tokens of a source can be spelled. -/
theorem isSpellable_of_mem_tokens (input : Input) {kind : Kind String}
    (h : kind ∈ input.tokens.kinds) : kind.isSpellable = true := by
  rcases input.text.scan_spelled with ⟨body, span, hscan, hbody⟩
  rcases List.mem_map.1 h with ⟨token, htoken, rfl⟩
  rcases List.mem_filterMap.1 htoken with ⟨record, hrecord, hview⟩
  rcases Option.bind_eq_some_iff.1 hview with ⟨v, hv, htoken'⟩
  rcases Option.map_eq_some_iff.1 htoken' with ⟨kind, hv', rfl⟩
  obtain rfl : record = .view v := by
    cases record <;> simp_all [Record.view?]
  rw [hscan] at hrecord
  rcases List.mem_append.1 hrecord with hrecord | hrecord
  · rcases hbody v hrecord with ⟨kind', hkind', hspellable⟩
    obtain rfl : kind = kind' := Option.some.inj (hv'.symm.trans hkind')
    exact hspellable
  · cases List.mem_singleton.1 hrecord
    cases hv'

/-- The names among the tokens of a source can be spelled. -/
theorem isName_of_mem_tokens (input : Input) {x : String}
    (h : Kind.identifier x ∈ input.tokens.kinds) : isName x = true :=
  input.isSpellable_of_mem_tokens h

/-- A text that spells some tokens has these tokens, and nothing is found in it. -/
theorem tokens_ofString {s : String} {ks : List (Kind String)} (h : Scans .gap s.toList ks) :
    (ofString s).tokens.kinds = ks ∧ (ofString s).scanFindings = [] := by
  rcases h .start with ⟨hkinds, hfindings⟩
  rw [tokens, scanFindings, text_ofString]
  refine ⟨hkinds, ?_⟩
  have hopening : Journal.findings (arrival none .start (s.toList.map .char)) = [] := by
    cases s.toList <;> rfl
  rw [Text.opening, Text.scan, hopening, hfindings]
  rfl

end Input

namespace Parser

/-- A new parser has the first view of the scan in view, and the records behind it to come. -/
theorem ofInput_cases (path : Option String) (input : Input) :
    ∃ before v after, input.text.scan = before ++ .view v :: after ∧ Journal.views before = 0 ∧
      ofInput path input
        = (⟨path, input.text.eof, v, after⟩, input.text.opening ++ (before ++ [.view v])) := by
  rcases input.text.scan_spelled with ⟨body, span, hscan, -⟩
  have hsplit := List.takeWhile_append_dropWhile (p := fun r : Record => r.view?.isNone)
    (l := input.text.scan)
  have hviews : Journal.views (input.text.scan.takeWhile (·.view?.isNone)) = 0 := by
    rw [Journal.views, List.countP_eq_zero]
    intro record hrecord
    have hnone := List.mem_takeWhile_imp hrecord
    simp_all
  cases hdrop : input.text.scan.dropWhile (·.view?.isNone) with
  | nil =>
    -- The end of the file is a view, so some view is left.
    rw [List.dropWhile_eq_nil_iff] at hdrop
    have hmem : Record.view (.eof span) ∈ input.text.scan := by
      rw [hscan]
      simp
    exact absurd (hdrop _ hmem) (by simp [Record.view?])
  | cons record after =>
    have hrecord : record.view?.isNone = false := by
      have hne : input.text.scan.dropWhile (·.view?.isNone) ≠ [] := by simp [hdrop]
      have hhead := List.head_dropWhile_not (fun r : Record => r.view?.isNone) hne
      simpa [hdrop] using hhead
    cases record with
    | view v =>
      refine ⟨_, v, after, ?_, hviews, ?_⟩
      · rw [← hdrop, hsplit]
      · simp [ofInput, Lexer.ofInput, Lexer.next, List.span_eq_takeWhile_dropWhile, hdrop]
    | finding | fault | parsed | unbound | bound => simp [Record.view?] at hrecord

/-- A parser at the start of an input has all tokens of the input before it. -/
theorem tokens_ofInput (path : Option String) (input : Input) :
    (ofInput path input).1.tokens = input.tokens := by
  rcases ofInput_cases path input with ⟨before, v, after, hscan, hbefore, hparser⟩
  rw [hparser, tokens, Input.tokens, hscan, Journal.tokens_append,
    Journal.tokens_eq_nil_of_views_eq_zero hbefore, List.nil_append]
  cases htoken : v.token? with
  | none => simp [Journal.tokens, Record.token?, Record.view?, htoken]
  | some token => simp [Journal.tokens, Record.token?, Record.view?, htoken]

/-- Reading as many tokens as an input has takes the parser to the end of the scan. -/
theorem splitViews_ofInput (path : Option String) (input : Input) :
    (ofInput path input).1.pending.splitViews input.tokens.length
      = ((ofInput path input).1.pending, []) := by
  rcases ofInput_cases path input with ⟨before, v, after, hscan, hbefore, hparser⟩
  rcases input.text.scan_spelled with ⟨body, span, hends, hspelled⟩
  have hbody : before ++ .view v :: after = body ++ [.view (.eof span)] := hscan.symm.trans hends
  rw [← tokens_ofInput path input, hparser]
  rcases List.eq_nil_or_concat after with rfl | ⟨more, last, rfl⟩
  · rw [Journal.splitViews_nil]
  · rw [List.concat_eq_append, ← List.cons_append, ← List.append_assoc] at hbody
    rcases List.append_inj' hbody rfl with ⟨rfl, hlast⟩
    obtain rfl : last = .view (.eof span) := List.singleton_inj.1 hlast
    -- The view ahead is a token, so there are more tokens than views before the end of the file.
    have hahead : v.token?.toList.length = 1 := by
      rcases hspelled v (by simp) with ⟨kind, hkind, -⟩
      simp [View.token?, hkind]
    have hmore : Journal.Spelled more := fun w hw => hspelled w (by simp [hw])
    rw [List.concat_eq_append]
    apply Journal.splitViews_of_views_lt
    rw [hmore.views_eq, tokens, List.length_append, hahead, Journal.tokens_append,
      List.length_append]
    omega

/-- A program that is read from the start of an input is the program of all its tokens, and the
whole scan is gone through. -/
theorem program_ofInput (path : Option String) (input : Input) :
    (ofInput path input).1.program.1 = (Parse.program path input.text.eof input.tokens).value ∧
      (ofInput path input).1.program.2.1
        = weave (ofInput path input).1.ahead.span
          (Parse.stmts input.text.eof input.tokens).findings (ofInput path input).1.pending := by
  have hsplit := splitViews_ofInput path input
  have htokens := tokens_ofInput path input
  rcases ofInput_cases path input with ⟨before, v, after, -, -, hparser⟩
  rw [hparser] at hsplit htokens ⊢
  constructor
  · rw [← htokens]
    rfl
  · rw [program, read, htokens, Parse.program_rest, List.length_nil, Nat.sub_zero, hsplit,
      Parse.program_eq]

end Parser

/-! ## Parsing in a context -/

section LeftInverse

variable {ι κ : Type} {f : ι → κ} {g : κ → ι} (h : ∀ x, g (f x) = x)
include h

/-- An expression carried over to other names and back is the same. -/
theorem Expr.map_map_of_leftInverse (e : Expr ι) : (e.map f).map g = e := by
  induction e with
  | lit | hole => rfl
  | var s x => simp [map, h]
  | unary s op e ih => simp_all [map]
  | binary s op l r ihl ihr => simp_all [map]

/-- A program carried over to other names and back is the same. -/
theorem Program.map_map_of_leftInverse (program : Program ι) :
    (program.map f).map g = program := by
  have hstmt : ∀ stmt : Stmt ι, (stmt.map f).map g = stmt := by
    intro stmt
    cases stmt with
    | bind s x e => simp only [Stmt.map, h, Expr.map_map_of_leftInverse h]
    | print s e => simp only [Stmt.map, Expr.map_map_of_leftInverse h]
  rcases program with ⟨path, span, stmts⟩
  simp [map, Function.comp_def, hstmt]

end LeftInverse

namespace Context

variable (ctx : Context) (path : Option String) (input : Input)

/-- The diagnostics that parsing an input adds to those of the context. -/
def reported : List Diagnostic :=
  (ctx.parse path input).context.diagnostics.toList.drop ctx.diagnostics.size

theorem journal_parse :
    (ctx.parse path input).journal.findings
      = (Parser.ofInput path input).2.findings
        ++ (Parser.ofInput path input).1.program.2.1.findings := by
  simp [parse, openParser, parseProgram, Journal.findings, Record.finding?]

/-- Parsing adds what it finds to the diagnostics made before. -/
theorem diagnostics_parse :
    (ctx.parse path input).context.diagnostics.toList
      = ctx.diagnostics.toList
        ++ (ctx.parse path input).journal.findings.map (Finding.diagnostic path) := by
  have hpath : (Parser.ofInput path input).1.program.2.2.path = path := by
    rcases Parser.ofInput_cases path input with ⟨before, v, after, -, -, hparser⟩
    rw [hparser]
    rfl
  rw [journal_parse, List.map_append, ← List.append_assoc, ← diagnostics_record]
  simp only [parse, openParser, parseProgram]
  rw [diagnostics_record, hpath]

theorem reported_eq :
    ctx.reported path input
      = (ctx.parse path input).journal.findings.map (Finding.diagnostic path) := by
  rw [reported, diagnostics_parse]
  simp

theorem errorCount_parse :
    (ctx.parse path input).context.errorCount
      = ctx.errorCount + (ctx.reported path input).length := by
  have hsize := congrArg List.length (ctx.diagnostics_parse path input)
  rw [List.length_append, ← reported_eq] at hsize
  exact hsize

/-- In a fresh context there are no errors exactly if nothing was reported. -/
theorem errorCount_parse_empty (table : Nat) :
    ((empty table).parse path input).context.errorCount = 0 ↔
      (empty table).reported path input = [] := by
  have hfresh : (empty table).errorCount = 0 := rfl
  rw [errorCount_parse, hfresh, Nat.zero_add, List.length_eq_zero_iff]

/-- Parsing finds what scanning and reading find, each finding once. -/
theorem findings_parse :
    (ctx.parse path input).journal.findings.Perm
      (input.scanFindings ++ (Parse.stmts input.text.eof input.tokens).findings) := by
  rcases Parser.ofInput_cases path input with ⟨before, v, after, hscan, -, hparser⟩
  have hprogram := (Parser.program_ofInput path input).2
  rw [journal_parse, hprogram, Input.scanFindings, hscan, hparser]
  have hview : Journal.findings (before ++ .view v :: after)
      = Journal.findings before ++ Journal.findings after := by
    rw [Journal.findings_append]
    rfl
  have hlast : Journal.findings [.view v] = [] := rfl
  rw [hview]
  simp only [Journal.findings_append, hlast, List.append_nil, List.append_assoc]
  exact ((findings_weave ..).append_left _).append_left _

/-- What scanning and reading find is reported. -/
theorem mem_reported {f : Finding}
    (h : f ∈ input.scanFindings ++ (Parse.stmts input.text.eof input.tokens).findings) :
    f.diagnostic path ∈ ctx.reported path input := by
  rw [reported_eq]
  exact List.mem_map_of_mem ((ctx.findings_parse path input).mem_iff.2 h)

theorem length_reported :
    (ctx.reported path input).length
      = input.scanFindings.length + (Parse.stmts input.text.eof input.tokens).findings.length := by
  rw [reported_eq, List.length_map, (ctx.findings_parse path input).length_eq, List.length_append]

/-- Parsing reports nothing if neither scanning nor reading finds anything. -/
theorem reported_eq_nil_iff :
    ctx.reported path input = [] ↔
      input.scanFindings = [] ∧ (Parse.stmts input.text.eof input.tokens).findings = [] := by
  rw [reported_eq, List.map_eq_nil_iff, ← List.append_eq_nil_iff]
  constructor
  · intro h
    have hperm := ctx.findings_parse path input
    rw [h] at hperm
    exact hperm.nil_eq.symm
  · intro h
    have hperm := ctx.findings_parse path input
    rw [h] at hperm
    exact hperm.eq_nil

/-- The parsed program is the one that was read, over the symbols of the context. -/
theorem map_name_parse :
    (ctx.parse path input).value.map Symbol.name
      = (Parse.program path input.text.eof input.tokens).value := by
  rw [← (Parser.program_ofInput path input).1]
  exact Program.map_map_of_leftInverse (fun name => Interner.name_symbol _ name) _

/-- The trees of the parsed statements are those that were read. -/
theorem trees_parse :
    ((ctx.parse path input).value.map Symbol.name).trees
      = (Parse.stmts input.text.eof input.tokens).value.map Stmt.tree := by
  rw [map_name_parse]
  rfl

end Context

end LetCalc
