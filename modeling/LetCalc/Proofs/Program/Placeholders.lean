import LetCalc.Proofs.Program.Acceptance
import LetCalc.Proofs.Program.Joining
import LetCalc.Proofs.Program.SourceOrder
import Mathlib.Data.List.NodupEquivFin

/-!
# Placeholders

Where an expression is missing a hole stands in for it, and where the name that a statement binds is
missing the name `<error>` does.  Neither is silent: going through a program from left to right, its
placeholders are reported one after the other, each by a report of its own.  When an expression is
given up the holes in it are lost, but not what was found along with them, and one hole and one
finding take their place.

No source spells the name `<error>`, so that a program without a report has no placeholder and does
not mention this name at all.

Main results:

- Definition `Program.placeholders`: the placeholders of a program in the order of the source.
- Theorem `Parse.reading_accounts`: the holes of an expression are accounted for by what was found.
- Theorem `sublist_interleave`: findings that are filed among others stay in order.
- Theorem `Context.placeholders_are_reported`: the placeholders of a source and its reports.
-/

namespace LetCalc

/-! ## What stands in for what is missing -/

/-- Something in a program that stands in for what is missing from its source. -/
inductive Placeholder where
  /-- A hole in place of an expression. -/
  | hole (span : Span)
  /-- The name `<error>` in place of the name that a statement binds. -/
  | name
deriving DecidableEq, Repr

/-- The report concerns what is missing: it is made at the place of the hole, or it says that a name
was expected. -/
def Placeholder.ReportedBy (path : Option String) : Placeholder → Diagnostic → Prop
  | .hole span, d => d.loc = ⟨path, span⟩
  | .name, d => ∃ found, d.problem = .expected .identifier found .letStatement

/-- The holes of an expression from left to right. -/
def Expr.placeholders {ι : Type} : Expr ι → List Placeholder
  | lit .. | var .. => []
  | unary _ _ e => placeholders e
  | binary _ _ l r => placeholders l ++ placeholders r
  | hole s => [.hole s]

/-- The placeholders of a statement from left to right. -/
def Stmt.placeholders : Stmt String → List Placeholder
  | bind _ x e => (if x = Parse.missingName then [.name] else []) ++ e.placeholders
  | print _ e => e.placeholders

/-- The placeholders of a program, statement by statement. -/
def Program.placeholders (program : Program String) : List Placeholder :=
  program.stmts.flatMap Stmt.placeholders

theorem Expr.isWhole_of_placeholders {ι : Type} {e : Expr ι} (h : e.placeholders = []) :
    e.tree.isWhole = true := by
  induction e with
  | lit | var => rfl
  | unary s op e ih => exact ih h
  | binary s op l r ihl ihr =>
    rcases List.append_eq_nil_iff.1 h with ⟨hl, hr⟩
    simp [tree, ExprTree.isWhole, ihl hl, ihr hr]
  | hole s => cases h

theorem Stmt.placeholders_expr {stmt : Stmt String} (h : stmt.placeholders = []) :
    stmt.expr.placeholders = [] := by
  cases stmt with
  | bind s x e => exact (List.append_eq_nil_iff.1 h).2
  | print s e => exact h

/-! ## Accounts -/

/-- A list that corresponds to some members of another in order can be mapped into it in order. -/
theorem exists_orderEmbedding_of_sublistForall₂ {α β : Type} {R : α → β → Prop} {xs : List α}
    {ys : List β} (h : List.SublistForall₂ R xs ys) :
    ∃ f : Fin xs.length ↪o Fin ys.length, ∀ i, R (xs.get i) (ys.get (f i)) := by
  rcases List.sublistForall₂_iff.1 h with ⟨zs, hzs, hsublist⟩
  rcases List.sublist_iff_exists_fin_orderEmbedding_get_eq.1 hsublist with ⟨f, hf⟩
  refine ⟨(Fin.castOrderIso hzs.length_eq).toOrderEmbedding.trans f, ?_⟩
  intro i
  have hi : i.1 < zs.length := hzs.length_eq ▸ i.2
  have hrel := hzs.get i.2 hi
  rwa [hf ⟨i.1, hi⟩] at hrel

/-- The placeholders are reported in order by some of the findings. -/
def Accounts (path : Option String) (placeholders : List Placeholder) (findings : List Finding) :
    Prop :=
  List.SublistForall₂ (Placeholder.ReportedBy path) placeholders
    (findings.map (Finding.diagnostic path))

namespace Accounts

variable {path : Option String} {ps qs : List Placeholder} {fs gs : List Finding}

theorem nil (fs : List Finding) : Accounts path [] fs := List.SublistForall₂.nil

/-- A hole where something was found. -/
theorem hole (f : Finding) : Accounts path [.hole f.span] [f] := .cons rfl .nil

/-- More findings do no harm. -/
theorem mono (h : Accounts path ps fs) (hsublist : fs.Sublist gs) : Accounts path ps gs := by
  rcases List.sublistForall₂_iff.1 h with ⟨ds, hds, hfs⟩
  exact List.sublistForall₂_iff.2 ⟨ds, hds, hfs.trans (hsublist.map _)⟩

theorem append (h : Accounts path ps fs) (h' : Accounts path qs gs) :
    Accounts path (ps ++ qs) (fs ++ gs) := by
  rcases List.sublistForall₂_iff.1 h with ⟨ds, hds, hfs⟩
  rcases List.sublistForall₂_iff.1 h' with ⟨es, hes, hgs⟩
  rw [Accounts, List.map_append]
  exact List.sublistForall₂_iff.2 ⟨ds ++ es, List.rel_append hds hes, hfs.append hgs⟩

/-- Findings that are made later do no harm. -/
theorem before (h : Accounts path ps fs) (gs : List Finding) : Accounts path ps (fs ++ gs) :=
  h.mono (List.sublist_append_left fs gs)

/-- Findings that were made earlier do no harm. -/
theorem after (h : Accounts path ps fs) (gs : List Finding) : Accounts path ps (gs ++ fs) :=
  h.mono (List.sublist_append_right gs fs)

end Accounts

namespace Parse

/-! ## Readings -/

variable (path : Option String)

/-- The holes of an expression are accounted for by what was found on the way, those of a left
operand by what was found before. -/
theorem reading_accounts (eof : Span) :
    (∀ room goal tokens, Accounts path (operand eof room goal tokens).value.placeholders
      (operand eof room goal tokens).findings) ∧
    (∀ room floor left tokens before, Accounts path left.placeholders before →
      Accounts path (fold eof room floor left tokens).value.placeholders
        (before ++ (fold eof room floor left tokens).findings)) ∧
    ∀ room floor goal tokens,
      Accounts path (expression eof room floor goal tokens).value.placeholders
        (expression eof room floor goal tokens).findings := by
  refine reading_induction eof
    (P := fun _ _ _ parsed => Accounts path parsed.value.placeholders parsed.findings)
    (Q := fun _ _ left _ parsed => ∀ before, Accounts path left.placeholders before →
      Accounts path parsed.value.placeholders (before ++ parsed.findings))
    (R := fun _ _ _ _ parsed => Accounts path parsed.value.placeholders parsed.findings)
    ?nothing ?number ?name ?sign ?group ?full ?stop ?operator ?fullFold ?whole
  case nothing =>
    intro room goal tokens _
    exact .hole (unexpected eof .operand goal tokens)
  case number | name =>
    intro room goal token v rest _
    exact .nil []
  case sign =>
    intro room goal token op rest _ ih
    exact ih.before []
  case group =>
    intro room goal token rest _ ih
    exact ih.before _
  case full =>
    intro goal token rest _
    exact .hole ⟨token.span, .tooDeep⟩
  case stop =>
    intro room floor left tokens _ before hleft
    exact hleft.before []
  case operator =>
    intro room floor left token op rest _ _ ihRight ihFold before hleft
    rw [Parsed.findings_andThen, ← List.append_assoc]
    exact ihFold _ _ _ (hleft.append ihRight)
  case fullFold =>
    -- The left operand is lost with its holes; what was found in it stays.
    intro floor left token op rest _ _ before _
    exact (Accounts.hole ⟨token.span, .tooDeep⟩).after before
  case whole =>
    intro room floor goal tokens ihOperand ihFold
    exact ihFold _ _ _ ihOperand

/-- A name that is missing is reported. -/
theorem boundName_accounts (eof : Span) {tokens : Tokens}
    (hnames : Kind.identifier missingName ∉ tokens.kinds) :
    Accounts path (if (boundName eof tokens).value = missingName then [.name] else [])
      (boundName eof tokens).findings := by
  by_cases hmissing : ∀ token ∈ tokens.head?, ∀ x, token.kind ≠ .identifier x
  · rw [boundName_of_ne eof hmissing, if_pos rfl]
    exact .cons ⟨_, rfl⟩ .nil
  · push Not at hmissing
    rcases hmissing with ⟨token, htoken, x, hkind⟩
    rcases List.head?_eq_some_iff.1 htoken with ⟨rest, rfl⟩
    have hx : x ≠ missingName := by
      rintro rfl
      exact hnames (hkind ▸ List.mem_cons_self ..)
    rw [boundName_of_kind eof rest hkind, if_neg hx]
    exact .nil []

theorem stmt_accounts (eof : Span) (word : Kind.Keyword) (span : Span) {tokens : Tokens}
    (hnames : Kind.identifier missingName ∉ tokens.kinds) :
    Accounts path (stmt eof word span tokens).value.placeholders
      (stmt eof word span tokens).findings := by
  have hexpression := (reading_accounts path eof).2.2
  cases word with
  | bind =>
    refine (boundName_accounts path eof hnames).append ?_
    exact ((hexpression maxDepth .bottom .initializer _).before _).after _
  | print => exact (hexpression maxDepth .bottom .printStatement tokens).before _

/-- The placeholders of a source are accounted for by what was found, if the name that stands in
for a missing one is not among its tokens. -/
theorem stmts_account (eof : Span) {tokens : Tokens}
    (hnames : Kind.identifier missingName ∉ tokens.kinds) :
    Accounts path ((stmts eof tokens).value.flatMap Stmt.placeholders)
      (stmts eof tokens).findings := by
  refine stmts_induction eof
    (P := fun tokens parsed => Kind.identifier missingName ∉ tokens.kinds →
      Accounts path (parsed.value.flatMap Stmt.placeholders) parsed.findings)
    ?nil ?keyword ?skip tokens hnames
  case nil =>
    intro _
    exact .nil []
  case keyword =>
    intro token word rest _ ih hnames
    have hrest : Kind.identifier missingName ∉ rest.kinds :=
      fun h => hnames (List.mem_cons_of_mem _ h)
    have hsuffix := (stmt_rest_suffix eof word token.span rest).map Token.kind
    have hstmt := stmt_accounts path eof word token.span hrest
    exact hstmt.append ((ih fun h => hrest (hsuffix.mem h)).before [])
  case skip =>
    intro token rest _ ih hnames
    exact (ih fun h => hnames (List.mem_cons_of_mem _ h)).after _

end Parse

/-! ## Reports -/

/-- Findings that are filed among others stay in order. -/
theorem sublist_interleave (findings : List Finding) (journal : Journal) :
    findings.Sublist (interleave findings journal) := by
  induction journal generalizing findings with
  | nil => exact List.Sublist.refl findings
  | cons record rest ih =>
    cases record with
    | view v =>
      have hsplit := List.takeWhile_append_dropWhile (p := fun f : Finding => f.span = v.span)
        (l := findings)
      conv => lhs; rw [← hsplit]
      exact (List.Sublist.refl _).append (ih _)
    | finding f => exact (ih findings).cons f
    | fault | parsed | unbound | bound => exact ih findings

/-- No source spells the name that stands in for a missing one. -/
theorem Input.missingName_notMem_tokens (input : Input) :
    Kind.identifier Parse.missingName ∉ input.tokens.kinds := by
  intro h
  exact absurd (input.isName_of_mem_tokens h) (by decide)

namespace Context

variable (ctx : Context) (path : Option String) (input : Input)

/-- The placeholders of a parsed program are accounted for by what parsing found. -/
theorem accounts_parse :
    Accounts path ((ctx.parse path input).value.map Symbol.name).placeholders
      (ctx.parse path input).journal.findings := by
  rw [map_name_parse, findings_parse_eq]
  have hread := Parse.stmts_account path input.text.eof input.missingName_notMem_tokens
  exact (hread.mono (sublist_interleave _ input.text.scan)).after _

/-- No placeholder is silent.  The placeholders of a parsed program are mapped one to one, and in
order, to reports of that parse: a hole to a report at its place, and the name `<error>` to one that
says that a name was expected.  So a program without a report has neither a hole nor that name. -/
theorem placeholders_are_reported :
    let program := (ctx.parse path input).value.map Symbol.name
    let reported := ctx.reported path input
    (∃ f : Fin program.placeholders.length ↪o Fin reported.length,
      ∀ i, (program.placeholders.get i).ReportedBy path (reported.get (f i))) ∧
    (reported = [] → (∀ stmt ∈ program.stmts, stmt.expr.tree.isWhole = true) ∧
      Parse.missingName ∉ program.names) := by
  intro program reported
  have haccounts : List.SublistForall₂ (Placeholder.ReportedBy path) program.placeholders
      reported := by
    have h := ctx.accounts_parse path input
    rwa [Accounts, ← reported_eq] at h
  refine ⟨exists_orderEmbedding_of_sublistForall₂ haccounts, ?_⟩
  intro hclean
  rw [hclean] at haccounts
  have hnone : program.placeholders = [] := by
    cases hps : program.placeholders with
    | nil => rfl
    | cons p ps =>
      rw [hps] at haccounts
      cases haccounts
  constructor
  · intro stmt hstmt
    have hstmts : stmt.placeholders = [] := List.flatMap_eq_nil_iff.1 hnone stmt hstmt
    exact Expr.isWhole_of_placeholders (Stmt.placeholders_expr hstmts)
  · intro hname
    rcases ctx.derived_of_reported_eq_nil path input hclean with ⟨d⟩
    have htree : program.names = program.trees.flatMap StmtTree.names := by
      simp [Program.names, Program.trees, List.flatMap_map]
    rw [htree] at hname
    rcases List.mem_flatMap.1 hname with ⟨tree, htree, hmem⟩
    exact input.missingName_notMem_tokens (d.identifier_of_mem_names htree hmem)

end Context

end LetCalc
