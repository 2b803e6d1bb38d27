import LetCalc.Proofs.Program.Dump
import LetCalc.Proofs.Token.Pieces

/-!
# Expressions that are nested too deeply

An expression for which there is no room is skipped, up to the parenthesis or the semicolon behind
it.  On the tokens of a grammatical program this goes well: skipping ends where reading with more
room would have come to the same point, so the groups around it are closed by their own parentheses,
the statement is closed by its own semicolon, and nothing else is reported.

Main results:

- Theorem `Parse.skip_of_clean`: skipping passes over whatever can be read without a finding.
- Theorem `Parse.reading_recovers`: reading with too little room goes on where a clean reading does.
- Theorem `Context.deep_nesting_is_local`: only statements that are nested too deeply are reported,
  and all others are parsed as they are derived.
-/

namespace LetCalc

open Grammar

namespace Parse

/-! ## Skipping -/

theorem skip_lead {token : Token String} (hlead : token.kind.lead ≠ .none)
    (hgroup : token.kind.lead ≠ .group) (depth : Nat) (rest : Tokens) :
    skipExpression depth (token :: rest) = skipExpression depth rest := by
  conv => lhs; unfold skipExpression
  split <;> simp_all [Kind.lead]

theorem skip_operator {token : Token String} {op : BinOp} (h : token.kind.binOp? = some op)
    (depth : Nat) (rest : Tokens) :
    skipExpression depth (token :: rest) = skipExpression depth rest := by
  conv => lhs; unfold skipExpression
  split <;> simp_all [Kind.binOp?]

theorem skip_open {token : Token String} (h : token.kind = .leftParen) (depth : Nat)
    (rest : Tokens) : skipExpression depth (token :: rest) = skipExpression (depth + 1) rest := by
  conv => lhs; unfold skipExpression
  split <;> simp_all

theorem skip_close {token : Token String} (h : token.kind = .rightParen) (depth : Nat)
    (rest : Tokens) : skipExpression (depth + 1) (token :: rest) = skipExpression depth rest := by
  conv => lhs; unfold skipExpression
  split <;> simp_all

/-- Skipping ends at a parenthesis that closes no group opened since, and at a semicolon. -/
theorem skip_stop {token : Token String}
    (h : token.kind = .rightParen ∨ token.kind = .semicolon) (rest : Tokens) :
    skipExpression 0 (token :: rest) = token :: rest := by
  unfold skipExpression
  split <;> simp_all

/-- Nothing is folded onto an expression from where skipping ends. -/
theorem stops_skip (floor : Prec) (depth : Nat) (tokens : Tokens) :
    Stops floor (skipExpression depth tokens) := by
  fun_induction skipExpression depth tokens with
  | case1 => exact stops_nil floor
  | case2 _ token rest hkind => exact stops_of_binOp?_eq_none (by rw [hkind]; rfl) floor rest
  | case3 token rest hkind => exact stops_of_binOp?_eq_none (by rw [hkind]; rfl) floor rest
  | case4 | case5 | case6 => assumption

/-- Skipping passes over whatever can be read without a finding. -/
theorem skip_of_clean (eof : Span) :
    (∀ room goal tokens, (operand eof room goal tokens).findings = [] →
      ∀ depth, skipExpression depth tokens
        = skipExpression depth (operand eof room goal tokens).rest) ∧
    (∀ room floor left tokens, (fold eof room floor left tokens).findings = [] →
      ∀ depth, skipExpression depth tokens
        = skipExpression depth (fold eof room floor left tokens).rest) ∧
    ∀ room floor goal tokens, (expression eof room floor goal tokens).findings = [] →
      ∀ depth, skipExpression depth tokens
        = skipExpression depth (expression eof room floor goal tokens).rest := by
  refine reading_induction eof
    (P := fun _ _ tokens parsed => parsed.findings = [] →
      ∀ depth, skipExpression depth tokens = skipExpression depth parsed.rest)
    (Q := fun _ _ _ tokens parsed => parsed.findings = [] →
      ∀ depth, skipExpression depth tokens = skipExpression depth parsed.rest)
    (R := fun _ _ _ tokens parsed => parsed.findings = [] →
      ∀ depth, skipExpression depth tokens = skipExpression depth parsed.rest)
    ?nothing ?number ?name ?sign ?group ?full ?stop ?operator ?fullFold ?whole
  case nothing =>
    intro room goal tokens _ hclean
    cases hclean
  case number =>
    intro room goal token v rest hlead _ depth
    exact skip_lead (by simp [hlead]) (by simp [hlead]) depth rest
  case name =>
    intro room goal token x rest hlead _ depth
    exact skip_lead (by simp [hlead]) (by simp [hlead]) depth rest
  case sign =>
    intro room goal token op rest hlead ih hclean depth
    rw [skip_lead (by simp [hlead]) (by simp [hlead])]
    exact ih (List.append_eq_nil_iff.1 hclean).1 depth
  case group =>
    intro room goal token rest hlead ih hclean depth
    rcases List.append_eq_nil_iff.1 hclean with ⟨hinner, hclose⟩
    rcases expect_clean (List.append_eq_nil_iff.1 hclose).1 with ⟨close, hkind, hrest⟩
    rw [skip_open (Kind.lead_eq_group.1 hlead), ih hinner, hrest, skip_close hkind]
    rfl
  case full =>
    intro goal token rest _ hclean
    cases hclean
  case stop =>
    intro room floor left tokens _ _ depth
    rfl
  case operator =>
    intro room floor left token op rest hop hprec ihRight ihFold hclean depth
    rcases List.append_eq_nil_iff.1 hclean with ⟨hright, hfold⟩
    rw [skip_operator hop, ihRight hright]
    exact ihFold _ _ hfold depth
  case fullFold =>
    intro floor left token op rest _ _ hclean
    cases hclean
  case whole =>
    intro room floor goal tokens ihOperand ihFold hclean depth
    rcases List.append_eq_nil_iff.1 hclean with ⟨hoperand, hfold⟩
    rw [ihOperand hoperand]
    exact ihFold _ _ hfold depth

/-! ## Clean readings -/

section Clean

variable {eof : Span} {room : Nat} {goal : Goal} {token : Token String} {rest : Tokens}

/-- For a sign that was read without a finding there was room. -/
theorem operand_sign_clean {op : UnOp} (hlead : token.kind.lead = .sign op)
    (h : (operand eof room goal (token :: rest)).findings = []) :
    ∃ less, (expression eof less .unary .signedOperand rest).findings = [] ∧
      (expression eof less .unary .signedOperand rest).rest
        = (operand eof room goal (token :: rest)).rest := by
  cases room with
  | zero =>
    rw [operand_full eof goal rest (Or.inr ⟨op, hlead⟩)] at h
    cases h
  | succ less =>
    rw [operand_sign eof less goal rest hlead] at h ⊢
    exact ⟨less, (List.append_eq_nil_iff.1 h).1, rfl⟩

/-- For a group that was read without a finding there was room, and it was closed. -/
theorem operand_group_clean (hlead : token.kind.lead = .group)
    (h : (operand eof room goal (token :: rest)).findings = []) :
    ∃ less close, (expression eof less .bottom .group rest).findings = [] ∧
      close.kind = .rightParen ∧
      (expression eof less .bottom .group rest).rest
        = close :: (operand eof room goal (token :: rest)).rest := by
  cases room with
  | zero =>
    rw [operand_full eof goal rest (Or.inl hlead)] at h
    cases h
  | succ less =>
    rw [operand_group eof less goal rest hlead] at h ⊢
    rcases List.append_eq_nil_iff.1 h with ⟨hinner, hclose⟩
    rcases expect_clean (List.append_eq_nil_iff.1 hclose).1 with ⟨close, hkind, hrest⟩
    exact ⟨less, close, hinner, hkind, hrest⟩

/-- For an operator that was folded without a finding there was room. -/
theorem fold_operator_clean {floor : Prec} {left : Expr String} {op : BinOp}
    (hop : token.kind.binOp? = some op) (hprec : floor < op.prec)
    (h : (fold eof room floor left (token :: rest)).findings = []) :
    ∃ less left', (expression eof less op.prec .rightOperand rest).findings = [] ∧
      (fold eof less floor left' (expression eof less op.prec .rightOperand rest).rest).findings
        = [] ∧
      (fold eof less floor left' (expression eof less op.prec .rightOperand rest).rest).rest
        = (fold eof room floor left (token :: rest)).rest := by
  cases room with
  | zero =>
    rw [fold_full eof rest left hop hprec] at h
    cases h
  | succ less =>
    rw [fold_operator eof less rest left hop hprec] at h ⊢
    rcases List.append_eq_nil_iff.1 h with ⟨hright, hfold⟩
    exact ⟨less, _, hright, hfold, rfl⟩

end Clean

/-! ## Reading with too little room -/

/-- All that was found is that expressions are nested too deeply, each time at one of the tokens. -/
def OnlyTooDeep (tokens : Tokens) (findings : List Finding) : Prop :=
  ∀ f ∈ findings, f.problem = .tooDeep ∧ ∃ token ∈ tokens, f.span = token.span

theorem onlyTooDeep_nil (tokens : Tokens) : OnlyTooDeep tokens [] := by
  intro f hf
  cases hf

theorem OnlyTooDeep.mono {tokens tokens' : Tokens} {findings : List Finding}
    (h : OnlyTooDeep tokens findings) (hsubset : tokens ⊆ tokens') :
    OnlyTooDeep tokens' findings := by
  intro f hf
  rcases h f hf with ⟨hproblem, token, htoken, hspan⟩
  exact ⟨hproblem, token, hsubset htoken, hspan⟩

theorem OnlyTooDeep.append {tokens tokens' : Tokens} {findings findings' : List Finding}
    (h : OnlyTooDeep tokens findings) (h' : OnlyTooDeep tokens' findings') :
    OnlyTooDeep (tokens ++ tokens') (findings ++ findings') := by
  intro f hf
  rcases List.mem_append.1 hf with hf | hf
  · exact h.mono (List.subset_append_left ..) f hf
  · exact h'.mono (List.subset_append_right ..) f hf

/-- The reading goes on from `rest`, up to which a clean reading comes, or from where skipping leads
from there; and all that it finds is that an expression is nested too deeply, at a token in front of
`rest`. -/
structure Recovers (tokens rest : Tokens) (parsed : Parsed (Expr String)) : Prop where
  goesOn : parsed.rest = rest ∨ parsed.rest = skipExpression 0 rest
  reports : ∃ used, tokens = used ++ rest ∧ OnlyTooDeep used parsed.findings

namespace Recovers

variable {tokens rest : Tokens} {parsed : Parsed (Expr String)}

theorem of_clean (e : Expr String) (h : rest <:+ tokens) : Recovers tokens rest ⟨e, rest, []⟩ := by
  rcases h with ⟨used, rfl⟩
  exact ⟨Or.inl rfl, used, rfl, onlyTooDeep_nil used⟩

/-- A token in front changes nothing, nor does another value. -/
theorem cons (h : Recovers tokens rest parsed) (token : Token String)
    {parsed' : Parsed (Expr String)} (hrest : parsed'.rest = parsed.rest)
    (hfindings : parsed'.findings = parsed.findings) : Recovers (token :: tokens) rest parsed' := by
  rcases h.reports with ⟨used, rfl, hused⟩
  refine ⟨hrest ▸ h.goesOn, token :: used, rfl, ?_⟩
  rw [hfindings]
  exact hused.mono (List.subset_cons_self ..)

/-- An expression that is given up is skipped, and reported at its first token. -/
theorem of_giveUp (eof : Span) {token : Token String} (hsuffix : rest <:+ tokens)
    (hskip : skipExpression 0 (token :: tokens) = skipExpression 0 rest) :
    Recovers (token :: tokens) rest (giveUp eof (token :: tokens)) := by
  rcases hsuffix with ⟨used, rfl⟩
  refine ⟨Or.inr hskip, token :: used, rfl, ?_⟩
  intro f hf
  cases List.mem_singleton.1 hf
  exact ⟨rfl, token, List.mem_cons_self .., rfl⟩

/-- Folding goes on where the operand in front was left; from where skipping ends nothing is
folded. -/
theorem andThen_fold {eof : Span} {room more : Nat} {floor : Prec} {e : Expr String}
    (h : Recovers tokens rest parsed) (f : Expr String → Expr String)
    (hclean : (fold eof more floor e rest).findings = [])
    (ih : ∀ left, Recovers rest (fold eof more floor e rest).rest (fold eof room floor left rest)) :
    Recovers tokens (fold eof more floor e rest).rest
      (parsed.andThen fun left tokens => fold eof room floor (f left) tokens) := by
  rcases h.reports with ⟨used, hused, hfindings⟩
  rcases h.goesOn with hrest | hrest
  · have hfold := ih (f parsed.value)
    rcases hfold.reports with ⟨used', hused', hfindings'⟩
    refine ⟨?_, used ++ used', ?_, ?_⟩
    · rw [Parsed.rest_andThen, hrest]
      exact hfold.goesOn
    · rw [List.append_assoc, ← hused', hused]
    · rw [Parsed.findings_andThen, hrest]
      exact hfindings.append hfindings'
  · rcases fold_rest_suffix eof more floor e rest with ⟨used', hused'⟩
    have hstop := fold_stop eof room floor (f parsed.value) (stops_skip floor 0 rest)
    refine ⟨Or.inr ?_, used ++ used', ?_, ?_⟩
    · rw [Parsed.rest_andThen, hrest, hstop]
      exact (skip_of_clean eof).2.1 more floor e rest hclean 0
    · rw [List.append_assoc, hused', hused]
    · rw [Parsed.findings_andThen, hrest, hstop]
      exact hfindings.append (onlyTooDeep_nil used')

/-- Whether or not something was skipped in it, a group is closed by its own parenthesis. -/
theorem group {eof : Span} {close : Token String} (h : Recovers tokens (close :: rest) parsed)
    (hclose : close.kind = .rightParen) (token : Token String) :
    Recovers (token :: tokens) rest (parsed.andThen fun e tokens =>
      (expect eof .rightParen .group tokens).andThen fun _ tokens => ⟨e, tokens, []⟩) := by
  have hrest : parsed.rest = close :: rest := by
    rcases h.goesOn with hrest | hrest
    · exact hrest
    · rwa [skip_stop (Or.inl hclose)] at hrest
  rcases h.reports with ⟨used, rfl, hfindings⟩
  refine ⟨Or.inl ?_, token :: (used ++ [close]), by simp, ?_⟩
  · rw [Parsed.rest_andThen, hrest, expect_of_kind eof .group rest hclose]
    rfl
  · rw [Parsed.findings_andThen, hrest, expect_of_kind eof .group rest hclose]
    exact (hfindings.append (onlyTooDeep_nil [close])).mono (List.subset_cons_self ..)

end Recovers

/-- Reading with too little room goes on where a clean reading does. -/
theorem reading_recovers (eof : Span) :
    (∀ room goal tokens, ∀ more, (operand eof more goal tokens).findings = [] →
      Recovers tokens (operand eof more goal tokens).rest (operand eof room goal tokens)) ∧
    (∀ room floor left tokens, ∀ more e, (fold eof more floor e tokens).findings = [] →
      Recovers tokens (fold eof more floor e tokens).rest (fold eof room floor left tokens)) ∧
    ∀ room floor goal tokens, ∀ more, (expression eof more floor goal tokens).findings = [] →
      Recovers tokens (expression eof more floor goal tokens).rest
        (expression eof room floor goal tokens) := by
  refine reading_induction eof
    (P := fun _ goal tokens parsed => ∀ more, (operand eof more goal tokens).findings = [] →
      Recovers tokens (operand eof more goal tokens).rest parsed)
    (Q := fun _ floor _ tokens parsed => ∀ more e, (fold eof more floor e tokens).findings = [] →
      Recovers tokens (fold eof more floor e tokens).rest parsed)
    (R := fun _ floor goal tokens parsed => ∀ more,
      (expression eof more floor goal tokens).findings = [] →
      Recovers tokens (expression eof more floor goal tokens).rest parsed)
    ?nothing ?number ?name ?sign ?group ?full ?stop ?operator ?fullFold ?whole
  case nothing =>
    intro room goal tokens hlead more hclean
    cases tokens with
    | nil =>
      rw [operand_nil] at hclean
      cases hclean
    | cons token rest =>
      rw [operand_none eof more goal rest (hlead token rfl)] at hclean
      cases hclean
  case number =>
    intro room goal token v rest hlead more _
    rw [operand_number eof more goal rest hlead]
    exact .of_clean _ (List.suffix_cons _ _)
  case name =>
    intro room goal token x rest hlead more _
    rw [operand_name eof more goal rest hlead]
    exact .of_clean _ (List.suffix_cons _ _)
  case sign =>
    intro room goal token op rest hlead ih more hclean
    rcases operand_sign_clean hlead hclean with ⟨less, hinner, hrest⟩
    rw [← hrest]
    exact (ih less hinner).cons token rfl (List.append_nil _)
  case group =>
    intro room goal token rest hlead ih more hclean
    rcases operand_group_clean hlead hclean with ⟨less, close, hinner, hclose, hrest⟩
    have hinside := ih less hinner
    rw [hrest] at hinside
    exact hinside.group hclose token
  case full =>
    intro goal token rest hlead more hclean
    refine .of_giveUp eof ?_ ((skip_of_clean eof).1 more goal _ hclean 0)
    rcases hlead with hlead | ⟨op, hlead⟩
    · rcases operand_group_clean hlead hclean with ⟨less, close, -, -, hrest⟩
      have hsuffix := expression_rest_suffix eof less .bottom .group rest
      rw [hrest] at hsuffix
      exact (List.suffix_cons _ _).trans hsuffix
    · rcases operand_sign_clean hlead hclean with ⟨less, -, hrest⟩
      rw [← hrest]
      exact expression_rest_suffix ..
  case stop =>
    intro room floor left tokens hstop more e _
    rw [fold_stop eof more floor e hstop]
    exact .of_clean _ (List.suffix_refl _)
  case operator =>
    intro room floor left token op rest hop hprec ihRight ihFold more e hclean
    rcases fold_operator_clean hop hprec hclean with ⟨less, e', hright, hfold, hrest⟩
    rw [← hrest]
    have hread := (ihRight less hright).andThen_fold (.binary left.span op left) hfold
      fun left' => ihFold left' _ less e' hfold
    exact hread.cons token rfl rfl
  case fullFold =>
    intro floor left token op rest hop hprec more e hclean
    refine .of_giveUp eof ?_ ((skip_of_clean eof).2.1 more floor e _ hclean 0)
    rcases fold_operator_clean hop hprec hclean with ⟨less, e', -, -, hrest⟩
    rw [← hrest]
    exact (fold_rest_suffix ..).trans (expression_rest_suffix ..)
  case whole =>
    intro room floor goal tokens ihOperand ihFold more hclean
    rcases List.append_eq_nil_iff.1 hclean with ⟨hoperand, hfold⟩
    exact (ihOperand more hoperand).andThen_fold id hfold
      fun left => ihFold left _ more _ hfold

/-! ## Statements -/

/-- Whatever its nesting, a derived expression is read up to the semicolon behind it, and all that
is found in it is that it is nested too deeply. -/
theorem value_recovers (eof : Span) {ks : List (Kind String)} {t : ExprTree String}
    (d : Derivation .expr ks t) (goal : Goal) {front : Tokens} (hfront : front.kinds = ks)
    {close : Token String} (hclose : close.kind = .semicolon) (rest : Tokens) :
    (expression eof maxDepth .bottom goal (front ++ close :: rest)).rest = close :: rest ∧
      OnlyTooDeep front
        (expression eof maxDepth .bottom goal (front ++ close :: rest)).findings := by
  rcases (derivation_readsWhole eof d hclose rest d.demand goal front hfront).1 (Nat.le_refl _) with
    ⟨e, -, hread⟩
  have h := (reading_recovers eof).2.2 maxDepth .bottom goal (front ++ close :: rest) d.demand
    (by rw [hread])
  rw [hread] at h
  constructor
  · rcases h.goesOn with hrest | hrest
    · exact hrest
    · rwa [skip_stop (Or.inr hclose)] at hrest
  · rcases h.reports with ⟨used, hused, hfindings⟩
    obtain rfl := List.append_cancel_right hused
    exact hfindings

end Parse

/-- The variable that a statement binds; none if it prints. -/
def StmtTree.target {ι : Type} : StmtTree ι → Option ι
  | .bind x _ => some x
  | .print _ => none

namespace Parse

/-- Whatever its nesting, a derived statement is read to its end as a statement of the same kind and
name, and all that is found in it is that it is nested too deeply. -/
theorem stmt_recovers (eof : Span) {ks : List (Kind String)} {s : StmtTree String}
    (d : StmtDerivation ks s) {token : Token String} {tail : Tokens} {word : Kind.Keyword}
    (hused : Tokens.kinds (token :: tail) = ks) (hword : token.kind.keyword? = some word)
    (rest : Tokens) :
    (stmt eof word token.span (tail ++ rest)).rest = rest ∧
      (stmt eof word token.span (tail ++ rest)).value.tree.target = s.target ∧
      OnlyTooDeep tail (stmt eof word token.span (tail ++ rest)).findings := by
  cases d with
  | bind x value =>
    rcases Tokens.kinds_eq_cons hused with ⟨_, _, ⟨⟩, hkind, htail⟩
    obtain rfl : word = .bind := by
      rw [hkind] at hword
      exact (Option.some.inj hword).symm
    rcases Tokens.kinds_eq_cons htail with ⟨name, tail, rfl, hname, htail⟩
    rcases Tokens.kinds_eq_cons htail with ⟨equal, tail, rfl, hequal, htail⟩
    rcases Tokens.kinds_eq_append htail with ⟨front, back, rfl, hfront, hback⟩
    rcases Tokens.kinds_eq_singleton hback with ⟨close, rfl, hclose⟩
    rcases value_recovers eof value .initializer hfront hclose rest with ⟨hrest, hfindings⟩
    have hsubset : front ⊆ name :: equal :: (front ++ [close]) := by
      intro token htoken
      simp [htoken]
    simp only [stmt, bindStmt, List.cons_append, List.append_assoc, List.nil_append,
      boundName_of_kind eof _ hname, expect_of_kind eof _ _ hequal, Parsed.mk_andThen,
      Parsed.rest_andThen, Parsed.value_andThen, Parsed.findings_andThen, hrest,
      expect_of_kind eof _ _ hclose, List.append_nil]
    exact ⟨trivial, rfl, hfindings.mono hsubset⟩
  | print value =>
    rcases Tokens.kinds_eq_cons hused with ⟨_, _, ⟨⟩, hkind, htail⟩
    obtain rfl : word = .print := by
      rw [hkind] at hword
      exact (Option.some.inj hword).symm
    rcases Tokens.kinds_eq_append htail with ⟨front, back, rfl, hfront, hback⟩
    rcases Tokens.kinds_eq_singleton hback with ⟨close, rfl, hclose⟩
    rcases value_recovers eof value .printStatement hfront hclose rest with ⟨hrest, hfindings⟩
    simp only [stmt, printStmt, List.append_assoc, List.cons_append, List.nil_append,
      Parsed.rest_andThen, Parsed.value_andThen, Parsed.findings_andThen, hrest,
      expect_of_kind eof _ _ hclose, List.append_nil]
    exact ⟨trivial, rfl, hfindings.mono (List.subset_append_left ..)⟩

end Parse

/-! ## Programs -/

/-- A statement of a source: its tokens, what they are derived as, and what they are parsed as. -/
structure SourceStmt where
  tokens : Tokens
  tree : StmtTree String
  derivation : StmtDerivation tokens.kinds tree
  parsed : StmtTree String

namespace SourceStmt

/-- The levels of nesting that the expression of the statement takes. -/
def demand (s : SourceStmt) : Nat := s.derivation.demand

/-- A report at one of the places is a report at a token of the statement. -/
def Draws (places : List Span) (s : SourceStmt) : Prop := ∃ token ∈ s.tokens, token.span ∈ places

/-- What becomes of a statement when reports are made at these places: it is parsed as a statement
of the same kind and name, it draws a report exactly if it is nested too deeply, and otherwise it is
parsed as it is derived. -/
structure Recovered (places : List Span) (s : SourceStmt) : Prop where
  target_eq : s.parsed.target = s.tree.target
  draws_iff : s.Draws places ↔ Parse.maxDepth < s.demand
  parsed_eq : s.demand ≤ Parse.maxDepth → s.parsed = s.tree

/-- Reports elsewhere make no difference. -/
theorem Recovered.of_places {s : SourceStmt} {places places' : List Span}
    (h : s.Recovered places)
    (hsame : ∀ token ∈ s.tokens, token.span ∈ places' ↔ token.span ∈ places) :
    s.Recovered places' := by
  refine ⟨h.target_eq, ?_, h.parsed_eq⟩
  rw [← h.draws_iff]
  exact exists_congr fun token => and_congr_right (hsame token)

end SourceStmt

namespace Parse

theorem OnlyTooDeep.span_mem {tokens : Tokens} {findings : List Finding}
    (h : OnlyTooDeep tokens findings) {span : Span} (hspan : span ∈ findings.map Finding.span) :
    span ∈ tokens.map Token.span := by
  rcases List.mem_map.1 hspan with ⟨f, hf, rfl⟩
  rcases h f hf with ⟨-, token, htoken, hspan⟩
  rw [hspan]
  exact List.mem_map_of_mem htoken

/-- What becomes of a derived statement when it is read. -/
theorem stmt_recovered (eof : Span) {token : Token String} {tail : Tokens} {word : Kind.Keyword}
    (hword : token.kind.keyword? = some word) {s : StmtTree String}
    (d : StmtDerivation (Tokens.kinds (token :: tail)) s) (rest : Tokens) :
    SourceStmt.Recovered ((stmt eof word token.span (tail ++ rest)).findings.map Finding.span)
      ⟨token :: tail, s, d, (stmt eof word token.span (tail ++ rest)).value.tree⟩ := by
  rcases stmtDerivation_reads eof d rfl rest with ⟨_, _, word', ⟨⟩, hword', hfits, hlacks⟩
  obtain rfl : word' = word := Option.some.inj (hword'.symm.trans hword)
  rcases stmt_recovers eof d rfl hword rest with ⟨-, htarget, honly⟩
  refine ⟨htarget, ⟨?_, ?_⟩, ?_⟩
  · rintro ⟨token', -, hspan⟩
    apply Nat.lt_of_not_le
    intro hroom
    rcases hfits hroom with ⟨st, -, hread⟩
    rw [hread] at hspan
    cases hspan
  · intro hroom
    rcases hlacks hroom with ⟨f, hf, -⟩
    rcases honly f hf with ⟨-, token', htoken', hspan⟩
    refine ⟨token', List.mem_cons_of_mem _ htoken', ?_⟩
    rw [← hspan]
    exact List.mem_map_of_mem hf
  · intro hroom
    rcases hfits hroom with ⟨st, htree, hread⟩
    rw [hread]
    exact htree

/-- Whatever the nesting, the statements of a derived program are read one by one, each to its
end. -/
theorem stmts_recover (eof : Span) {ks : List (Kind String)} {ss : List (StmtTree String)}
    (d : ProgramDerivation ks ss) {tokens : Tokens} (htokens : tokens.kinds = ks)
    (hapart : (tokens.map Token.span).Nodup) :
    OnlyTooDeep tokens (stmts eof tokens).findings ∧
      ∃ source : List SourceStmt, source.map SourceStmt.tree = ss ∧
        source.map SourceStmt.demand = d.demands ∧
        source.flatMap SourceStmt.tokens = tokens ∧
        source.map SourceStmt.parsed = (stmts eof tokens).value.map Stmt.tree ∧
        ∀ s ∈ source, s.Recovered ((stmts eof tokens).findings.map Finding.span) := by
  induction d generalizing tokens with
  | nil =>
    cases List.map_eq_nil_iff.1 htokens
    rw [stmts_nil]
    exact ⟨onlyTooDeep_nil [], [], rfl, rfl, rfl, rfl, by simp⟩
  | @cons _ _ tree _ stmt rest ih =>
    rcases Tokens.kinds_eq_append htokens with ⟨front, back, rfl, hfront, hback⟩
    rw [List.map_append, List.nodup_append] at hapart
    rcases hapart with ⟨-, hapartBack, hapart⟩
    rcases stmtDerivation_reads eof stmt hfront back with ⟨token, tail, word, rfl, hword, -⟩
    rcases stmt_recovers eof stmt hfront hword back with ⟨hrest, -, honly⟩
    rcases ih hback hapartBack with ⟨honlyBack, source, htrees, hdemands, hflat, hparsed, hsource⟩
    subst hfront
    let first : SourceStmt :=
      ⟨token :: tail, tree, stmt, (Parse.stmt eof word token.span (tail ++ back)).value.tree⟩
    have hfirst := stmt_recovered eof hword stmt back
    rw [List.cons_append, stmts_keyword eof _ hword]
    simp only [Parsed.value_andThen, Parsed.findings_andThen, hrest, List.append_nil,
      List.map_append, List.map_cons]
    refine ⟨(honly.mono (List.subset_cons_self token tail)).append honlyBack, first :: source,
      congrArg (tree :: ·) htrees, congrArg (stmt.demand :: ·) hdemands,
      congrArg (token :: tail ++ ·) hflat, congrArg (first.parsed :: ·) hparsed, ?_⟩
    intro s hs
    rcases List.mem_cons.1 hs with rfl | hs
    · refine hfirst.of_places fun token' htoken' => ?_
      rw [List.mem_append, or_iff_left]
      intro hspan
      exact hapart _ (List.mem_map_of_mem htoken') _ (honlyBack.span_mem hspan) rfl
    · refine (hsource s hs).of_places fun token' htoken' => ?_
      have hmem : token' ∈ back := hflat ▸ List.mem_flatMap_of_mem hs htoken'
      rw [List.mem_append, or_iff_right]
      intro hspan
      have hfront := List.mem_cons_of_mem token.span (honly.span_mem hspan)
      exact hapart _ hfront _ (List.mem_map_of_mem hmem) rfl

end Parse

/-- No two tokens of a source stand at the same place. -/
theorem Input.nodup_spans (input : Input) : (input.tokens.map Token.span).Nodup := by
  rw [List.Nodup, List.pairwise_map]
  refine input.text.tokens_scan_lt.imp fun hlt hsame => ?_
  rw [hsame] at hlt
  exact Pos.lt_irrefl _ hlt

namespace Context

/-- If scanning finds nothing, what is reported is what reading finds. -/
theorem mem_reported_iff (ctx : Context) (path : Option String) {input : Input}
    (hscan : input.scanFindings = []) {r : Diagnostic} :
    r ∈ ctx.reported path input ↔
      ∃ f ∈ (Parse.stmts input.text.eof input.tokens).findings, f.diagnostic path = r := by
  have hperm := ctx.findings_parse path input
  rw [hscan, List.nil_append] at hperm
  simp only [reported_eq, List.mem_map, hperm.mem_iff]

/-- Whatever its nesting, a grammatical program on which the scanner finds nothing is parsed
statement by statement.  All that is reported is that expressions are nested too deeply, at tokens
of the source; each statement is parsed as one of the same kind and name; it draws a report exactly
if its expression takes more levels than the limit; and if not, it is parsed as it is derived,
whatever the other statements are. -/
theorem deep_nesting_is_local (ctx : Context) (path : Option String) {input : Input}
    {trees : List (StmtTree String)} (hscan : input.scanFindings = [])
    (d : ProgramDerivation input.tokens.kinds trees) :
    (∀ r ∈ ctx.reported path input,
        r.problem = .tooDeep ∧ ∃ token ∈ input.tokens, r.loc = ⟨path, token.span⟩) ∧
      ∃ source : List SourceStmt, source.map SourceStmt.tree = trees ∧
        source.map SourceStmt.demand = d.demands ∧
        source.flatMap SourceStmt.tokens = input.tokens ∧
        source.map SourceStmt.parsed = ((ctx.parse path input).value.map Symbol.name).trees ∧
        ∀ s ∈ source, s.Recovered ((ctx.reported path input).map (·.loc.span)) := by
  rcases Parse.stmts_recover input.text.eof d rfl input.nodup_spans with
    ⟨honly, source, htrees, hdemands, hflat, hparsed, hsource⟩
  constructor
  · intro r hr
    rcases (ctx.mem_reported_iff path hscan).1 hr with ⟨f, hf, rfl⟩
    rcases honly f hf with ⟨hproblem, token, htoken, hspan⟩
    exact ⟨hproblem, token, htoken, congrArg (Loc.mk path) hspan⟩
  · refine ⟨source, htrees, hdemands, hflat, hparsed.trans (ctx.trees_parse path input).symm, ?_⟩
    intro s hs
    refine (hsource s hs).of_places fun token _ => ?_
    simp only [List.mem_map, ctx.mem_reported_iff path hscan]
    constructor
    · rintro ⟨_, ⟨f, hf, rfl⟩, hspan⟩
      exact ⟨f, hf, hspan⟩
    · rintro ⟨f, hf, hspan⟩
      exact ⟨f.diagnostic path, ⟨f, hf, rfl⟩, hspan⟩

end Context

/-- The tokens of a program that prints a one behind 513 signs and then gives a variable the value
two. -/
def deepKinds : List (Kind String) :=
  (.keywordPrint :: (signsKinds 513 ++ [.semicolon])) ++
    ([.keywordLet, .identifier "x", .equal, .int 2, .semicolon] ++ [])

def deepProgram :
    ProgramDerivation deepKinds [.print (Expr.signs 513).tree, .bind "x" (.lit 2)] :=
  .cons (.print (.ofTerm (.ofUnary (signsDerivation 513))))
    (.cons (.bind "x" (.ofTerm (.ofUnary (.ofPrimary (.int 2))))) .nil)

/-- The first statement is nested too deeply and draws a report, the second is parsed as it is. -/
theorem deep_nesting_is_local_signs :
    let input := Input.ofString (.ofList (spaced deepKinds))
    input.scanFindings = [] ∧ (Context.empty 0).reported none input ≠ [] ∧
      (∀ r ∈ (Context.empty 0).reported none input, r.problem = .tooDeep) ∧
      ∃ e, (((Context.empty 0).parse none input).value.map Symbol.name).trees
        = [.print e, .bind "x" (.lit 2)] := by
  intro input
  have hspell : ∀ kind ∈ deepKinds, kind.isSpellable = true := by decide +kernel
  have hs : (String.ofList (spaced deepKinds)).toList = spaced deepKinds := String.toList_ofList
  rcases Input.tokens_ofString (hs ▸ scans_spaced hspell) with ⟨htokens, hscan⟩
  obtain ⟨d, hd⟩ : ∃ d : ProgramDerivation input.tokens.kinds
      [.print (Expr.signs 513).tree, .bind "x" (.lit 2)], d.demands = [513, 0] := by
    rw [htokens]
    exact ⟨deepProgram, congrArg (fun n => [n, 0]) (demand_signsDerivation 513)⟩
  rcases (Context.empty 0).deep_nesting_is_local none hscan d with
    ⟨honly, source, htrees, hdemands, -, hparsed, hsource⟩
  rw [hd] at hdemands
  rcases List.map_eq_cons_iff.1 hdemands with ⟨first, more, rfl, hfirst, hmore⟩
  rcases List.map_eq_cons_iff.1 hmore with ⟨second, none, rfl, hsecond, hnone⟩
  cases List.map_eq_nil_iff.1 hnone
  rcases List.cons.inj htrees with ⟨htree, htrees'⟩
  rcases List.cons.inj htrees' with ⟨htree', -⟩
  have hdeep := hsource first (by simp)
  have hflat := hsource second (by simp)
  refine ⟨hscan, ?_, fun r hr => (honly r hr).1, ?_⟩
  · intro hnil
    rcases hdeep.draws_iff.2 (by rw [hfirst]; decide) with ⟨token, -, hplace⟩
    rw [hnil] at hplace
    cases hplace
  · obtain ⟨e, he⟩ : ∃ e, first.parsed = .print e := by
      have htarget := hdeep.target_eq
      rw [htree] at htarget
      cases hprint : first.parsed with
      | bind x e => simp [hprint, StmtTree.target] at htarget
      | print e => exact ⟨e, rfl⟩
    refine ⟨e, hparsed.symm.trans ?_⟩
    rw [List.map_cons, List.map_cons, List.map_nil, he,
      hflat.parsed_eq (by rw [hsecond]; decide), htree']

end LetCalc
