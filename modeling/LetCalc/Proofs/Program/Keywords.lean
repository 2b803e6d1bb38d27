import LetCalc.Proofs.Program.Recovery
import LetCalc.Proofs.Token.Places

/-!
# Statements and keywords

Whatever is missing from a source or stands in its way, a keyword is never read as a part of a
statement: it is left in view for the next one.  Only an expression that is nested too deeply takes
keywords with it when it is skipped, and what was skipped can be told from the tokens and from the
places where this was reported.  So statements and keywords that were not skipped match one by one.

Main results:

- Definition `unskipped`: the tokens that are left when those skipped from some places on are taken
  out.
- Theorem `Parse.Keeps.andThen`: readings in a row keep the keywords that each of them keeps.
- Theorems `Parse.reading_keeps`, `Parse.stmt_keeps` and `Parse.stmts_keep`: no part of a statement
  takes a keyword, and all statements take all.
- Theorem `Context.stmts_match_keywords`: the statements of a source and its keywords.
-/

namespace LetCalc

/-! ## Keywords -/

/-- The keyword of a statement and its place. -/
def Stmt.keyword {ι : Type} : Stmt ι → Kind.Keyword × Span
  | bind span .. => (.bind, span)
  | print span _ => (.print, span)

theorem Kind.keyword?_of_lead {kind : Kind String} (h : kind.lead ≠ .none) :
    kind.keyword? = none := by
  cases kind <;> first | rfl | exact absurd rfl h

theorem Kind.keyword?_of_binOp? {kind : Kind String} {op : BinOp} (h : kind.binOp? = some op) :
    kind.keyword? = none := by
  cases kind <;> first | rfl | cases h

/-- The keywords among some tokens, each with its place. -/
def Tokens.keywords (tokens : Tokens) : List (Kind.Keyword × Span) :=
  tokens.filterMap fun token => token.kind.keyword?.map (·, token.span)

/-- The tokens that are left when from each of the places on an expression is skipped. -/
def unskipped (places : List Span) : Tokens → Tokens
  | [] => []
  | token :: rest =>
    if token.span ∈ places ∧ Parse.skipExpression 0 (token :: rest) ≠ token :: rest then
      unskipped places (Parse.skipExpression 0 (token :: rest))
    else token :: unskipped places rest
termination_by tokens => tokens.length
decreasing_by
  · next h =>
    have hsuffix := Parse.skipExpression_suffix 0 (token :: rest)
    exact Nat.lt_of_le_of_ne hsuffix.length_le fun hlength => h.2 (hsuffix.eq_of_length hlength)
  · exact Nat.lt_succ_self _

theorem unskipped_nil (places : List Span) : unskipped places [] = [] := by
  rw [unskipped]

theorem unskipped_skip {places : List Span} {token : Token String} {rest : Tokens}
    (hplace : token.span ∈ places) (hskip : Parse.skipExpression 0 (token :: rest) <:+ rest) :
    unskipped places (token :: rest)
      = unskipped places (Parse.skipExpression 0 (token :: rest)) := by
  have hne : Parse.skipExpression 0 (token :: rest) ≠ token :: rest := by
    intro heq
    have hlength := hskip.length_le
    rw [heq] at hlength
    exact Nat.not_succ_le_self _ hlength
  rw [unskipped, if_pos ⟨hplace, hne⟩]

theorem unskipped_keep {places : List Span} {token : Token String} (hplace : token.span ∉ places)
    (rest : Tokens) : unskipped places (token :: rest) = token :: unskipped places rest := by
  rw [unskipped, if_neg fun h => hplace h.1]

/-- Without places nothing is skipped. -/
theorem unskipped_of_nil (tokens : Tokens) : unskipped [] tokens = tokens := by
  induction tokens with
  | nil => exact unskipped_nil []
  | cons token rest ih => rw [unskipped_keep (by simp), ih]

/-- The places where expressions were found to be nested too deeply. -/
def deepPlaces (findings : List Finding) : List Span :=
  (findings.filter (·.problem = .tooDeep)).map Finding.span

theorem deepPlaces_append (fs gs : List Finding) :
    deepPlaces (fs ++ gs) = deepPlaces fs ++ deepPlaces gs := by
  rw [deepPlaces, List.filter_append, List.map_append]
  rfl

namespace Parse

/-! ## Readings that keep keywords -/

/-- The reading takes tokens from the front, and `words` are the keywords among those that it does
not skip.  It skips from the places where it finds something to be nested too deeply, all among the
tokens that it takes, and reports elsewhere make no difference; for these to be told apart no two
tokens may stand at the same place. -/
def Keeps {α : Type} (words : List (Kind.Keyword × Span)) (tokens : Tokens) (parsed : Parsed α) :
    Prop :=
  (tokens.map Token.span).Nodup → ∃ used, tokens = used ++ parsed.rest ∧
    deepPlaces parsed.findings ⊆ used.map Token.span ∧
    ∀ places, (∀ span ∈ used.map Token.span, span ∈ places ↔ span ∈ deepPlaces parsed.findings) →
      (unskipped places tokens).keywords = words ++ (unskipped places parsed.rest).keywords

namespace Keeps

variable {α β : Type} {words words' : List (Kind.Keyword × Span)} {tokens : Tokens}

/-- Readings in a row keep the keywords that each of them keeps. -/
theorem andThen {first : Parsed α} {next : α → Tokens → Parsed β} (h : Keeps words tokens first)
    (h' : Keeps words' first.rest (next first.value first.rest)) :
    Keeps (words ++ words') tokens (first.andThen next) := by
  intro hapart
  rcases h hapart with ⟨used, htokens, hused, hwords⟩
  rw [htokens, List.map_append, List.nodup_append] at hapart
  rcases hapart with ⟨-, hrest, hapart⟩
  rcases h' hrest with ⟨used', htokens', hused', hwords'⟩
  -- A place of one reading is no place of the other, as their tokens stand apart.
  have hfront : ∀ span ∈ used.map Token.span, span ∉ used'.map Token.span := by
    intro span hspan hspan'
    refine hapart span hspan span ?_ rfl
    rw [htokens', List.map_append]
    exact List.mem_append_left _ hspan'
  refine ⟨used ++ used', ?_, ?_, ?_⟩
  · rw [List.append_assoc]
    exact htokens.trans (congrArg (used ++ ·) htokens')
  · rw [Parsed.findings_andThen, deepPlaces_append, List.map_append]
    exact List.append_subset.2 ⟨List.subset_append_of_subset_left _ hused,
      List.subset_append_of_subset_right _ hused'⟩
  · intro places hplaces
    simp only [Parsed.findings_andThen, deepPlaces_append, List.map_append, List.mem_append]
      at hplaces
    rw [Parsed.rest_andThen, List.append_assoc, hwords places, hwords' places]
    · intro span hspan
      rw [hplaces span (Or.inr hspan), or_iff_right]
      intro hplace
      exact hfront span (hused hplace) hspan
    · intro span hspan
      rw [hplaces span (Or.inl hspan), or_iff_left]
      intro hplace
      exact hfront span hspan (hused' hplace)

/-- Where nothing is taken no keyword is. -/
theorem nothing (x : α) {findings : List Finding} (h : deepPlaces findings = []) :
    Keeps [] tokens ⟨x, tokens, findings⟩ := by
  intro _
  refine ⟨[], rfl, ?_, ?_⟩
  · rw [h]
    exact List.nil_subset _
  · intro places _
    rfl

/-- A token that is taken without being skipped. -/
theorem token (x : α) {findings : List Finding} (h : deepPlaces findings = [])
    (token : Token String) (rest : Tokens) :
    Keeps (token.kind.keyword?.map (·, token.span)).toList (token :: rest)
      ⟨x, rest, findings⟩ := by
  intro _
  refine ⟨[token], rfl, ?_, ?_⟩
  · rw [h]
    exact List.nil_subset _
  · intro places hplaces
    have hplace : token.span ∉ places := by
      rw [hplaces token.span (List.mem_singleton_self _), h]
      exact List.not_mem_nil
    rw [unskipped_keep hplace]
    cases hword : token.kind.keyword? <;> simp [Tokens.keywords, hword]

/-- A token that is taken without being skipped, and is no keyword. -/
theorem plain (x : α) {findings : List Finding} (h : deepPlaces findings = [])
    {token : Token String} (hword : token.kind.keyword? = none) (rest : Tokens) :
    Keeps [] (token :: rest) ⟨x, rest, findings⟩ := by
  have htoken := Keeps.token x h token rest
  rwa [hword] at htoken

/-- A token in front is taken with its keyword, if it is one. -/
theorem cons (token : Token String) {rest : Tokens} {parsed : Parsed α}
    (h : Keeps words rest parsed) :
    Keeps ((token.kind.keyword?.map (·, token.span)).toList ++ words) (token :: rest) parsed := by
  have hfirst : Keeps _ (token :: rest) (Parsed.mk () rest []) := Keeps.token () rfl token rest
  have hboth : Keeps _ (token :: rest) ((Parsed.mk () rest []).andThen fun _ _ => parsed) :=
    hfirst.andThen h
  exact hboth

/-- A token in front that is no keyword changes nothing. -/
theorem cons_plain {token : Token String} (hword : token.kind.keyword? = none) {rest : Tokens}
    {parsed : Parsed α} (h : Keeps words rest parsed) : Keeps words (token :: rest) parsed := by
  have hcons := h.cons token
  rwa [hword] at hcons

theorem cons_keyword {token : Token String} {word : Kind.Keyword}
    (hword : token.kind.keyword? = some word) {rest : Tokens} {parsed : Parsed α}
    (h : Keeps words rest parsed) :
    Keeps ((word, token.span) :: words) (token :: rest) parsed := by
  have hcons := h.cons token
  rwa [hword] at hcons

/-- Another value makes no difference. -/
theorem map {parsed : Parsed α} (h : Keeps words tokens parsed) (f : α → β) :
    Keeps words tokens (parsed.andThen fun x tokens => ⟨f x, tokens, []⟩) := by
  rw [← List.append_nil words]
  exact h.andThen (nothing _ rfl)

/-- An expression that is given up is skipped, from where it is reported. -/
theorem giveUp (eof : Span) {token : Token String} {rest : Tokens}
    (h : skipExpression 0 (token :: rest) <:+ rest) :
    Keeps [] (token :: rest) (Parse.giveUp eof (token :: rest)) := by
  intro _
  have hskip := h
  rcases h with ⟨used, hused⟩
  refine ⟨token :: used, ?_, ?_, ?_⟩
  · exact congrArg (token :: ·) hused.symm
  · exact List.cons_subset_cons _ (List.nil_subset _)
  · intro places hplaces
    have hplace : token.span ∈ places :=
      (hplaces token.span (List.mem_cons_self ..)).2 (List.mem_singleton_self _)
    rw [unskipped_skip hplace hskip]
    rfl

end Keeps

/-! ## What keeps keywords -/

theorem expect_keeps (eof : Span) {kind : Kind String} (hkind : kind.keyword? = none) (goal : Goal)
    (tokens : Tokens) : Keeps [] tokens (expect eof kind goal tokens) := by
  unfold expect
  split
  · next token rest =>
    split
    · next hsame => exact .plain () rfl (by rw [hsame, hkind]) rest
    · exact .nothing () rfl
  · exact .nothing () rfl

theorem boundName_keeps (eof : Span) (tokens : Tokens) :
    Keeps [] tokens (boundName eof tokens) := by
  unfold boundName
  split
  · exact .nothing _ rfl
  · next token rest =>
    split
    · next x hlead => exact .plain x rfl (Kind.keyword?_of_lead (by simp [hlead])) rest
    · exact .nothing _ rfl

/-- No part of an expression is a keyword, unless the expression is skipped. -/
theorem reading_keeps (eof : Span) :
    (∀ room goal tokens, Keeps [] tokens (operand eof room goal tokens)) ∧
    (∀ room floor left tokens, Keeps [] tokens (fold eof room floor left tokens)) ∧
    ∀ room floor goal tokens, Keeps [] tokens (expression eof room floor goal tokens) := by
  refine reading_induction eof
    (P := fun _ _ tokens parsed => Keeps [] tokens parsed)
    (Q := fun _ _ _ tokens parsed => Keeps [] tokens parsed)
    (R := fun _ _ _ tokens parsed => Keeps [] tokens parsed)
    ?nothing ?number ?name ?sign ?group ?full ?stop ?operator ?fullFold ?whole
  case nothing =>
    intro room goal tokens _
    exact .nothing _ rfl
  case number =>
    intro room goal token v rest hlead
    exact .plain _ rfl (Kind.keyword?_of_lead (by simp [hlead])) rest
  case name =>
    intro room goal token x rest hlead
    exact .plain _ rfl (Kind.keyword?_of_lead (by simp [hlead])) rest
  case sign =>
    intro room goal token op rest hlead ih
    exact (ih.map _).cons_plain (Kind.keyword?_of_lead (by simp [hlead]))
  case group =>
    intro room goal token rest hlead ih
    refine .cons_plain (Kind.keyword?_of_lead (by simp [hlead])) (ih.andThen ?_)
    exact (expect_keeps eof rfl .group _).map _
  case full =>
    intro goal token rest hlead
    apply Keeps.giveUp
    rcases hlead with hlead | ⟨op, hlead⟩
    · rw [skip_open (Kind.lead_eq_group.1 hlead)]
      exact skipExpression_suffix 1 rest
    · rw [skip_lead (by simp [hlead]) (by simp [hlead])]
      exact skipExpression_suffix 0 rest
  case stop =>
    intro room floor left tokens _
    exact .nothing _ rfl
  case operator =>
    intro room floor left token op rest hop _ ihRight ihFold
    exact .cons_plain (Kind.keyword?_of_binOp? hop) (ihRight.andThen (ihFold _ _))
  case fullFold =>
    intro floor left token op rest hop _
    apply Keeps.giveUp
    rw [skip_operator hop]
    exact skipExpression_suffix 0 rest
  case whole =>
    intro room floor goal tokens ihOperand ihFold
    exact ihOperand.andThen (ihFold _ _)

/-- No part of a statement behind its keyword is a keyword. -/
theorem stmt_keeps (eof : Span) (word : Kind.Keyword) (span : Span) (tokens : Tokens) :
    Keeps [] tokens (stmt eof word span tokens) := by
  cases word with
  | bind =>
    refine (boundName_keeps eof tokens).andThen ?_
    refine (expect_keeps eof rfl _ _).andThen ?_
    refine ((reading_keeps eof).2.2 _ _ _ _).andThen ?_
    exact (expect_keeps eof rfl _ _).map _
  | print =>
    refine ((reading_keeps eof).2.2 _ _ _ _).andThen ?_
    exact (expect_keeps eof rfl _ _).map _

/-- A statement has the keyword that it was read for, at its place. -/
theorem keyword_stmt (eof : Span) (word : Kind.Keyword) (span : Span) (tokens : Tokens) :
    (stmt eof word span tokens).value.keyword = (word, span) := by
  cases word with
  | bind => rfl
  | print => rfl

/-- The statements of a source take all of its keywords, one each. -/
theorem stmts_keep (eof : Span) (tokens : Tokens) :
    Keeps ((stmts eof tokens).value.map Stmt.keyword) tokens (stmts eof tokens) := by
  refine stmts_induction eof
    (P := fun tokens parsed => Keeps (parsed.value.map Stmt.keyword) tokens parsed)
    ?nil ?keyword ?skip tokens
  case nil => exact .nothing _ rfl
  case keyword =>
    intro token word rest hword ih
    rw [Parsed.value_andThen, Parsed.value_andThen, List.map_cons, keyword_stmt]
    exact .cons_keyword hword ((stmt_keeps eof word token.span rest).andThen (ih.map _))
  case skip =>
    intro token rest hword ih
    exact (Keeps.plain () rfl hword rest).andThen ih

end Parse

/-! ## Sources -/

/-- No piece of a text is nested too deeply. -/
theorem Piece.front_problem_ne_tooDeep (g : Glyph) (rest : List Glyph) :
    (front g rest).problem ≠ some .tooDeep := by
  intro h
  cases g with
  | malformed fault => cases h
  | char c =>
    simp only [front, slash, number, word] at h
    repeat' split at h
    all_goals cases h

/-- The scanner never finds an expression that is nested too deeply. -/
theorem Input.deepPlaces_scanFindings (input : Input) : deepPlaces input.scanFindings = [] := by
  rw [deepPlaces, List.map_eq_nil_iff, List.filter_eq_nil_iff]
  intro f hf hdeep
  have hproblem : f.problem = .tooDeep := of_decide_eq_true hdeep
  rw [scanFindings, input.text.findings_scan.mem_iff, List.mem_append] at hf
  rcases hf with hf | hf
  · rcases Option.map_eq_some_iff.1 (Option.mem_toList.1 hf) with ⟨reason, -, rfl⟩
    cases hproblem
  · rcases Piece.exists_of_mem_findings hf with ⟨before, piece, after, hpieces, hfound, -⟩
    have hpiece : piece ∈ pieces input.text.glyphs := by simp [hpieces]
    rcases Piece.exists_front_of_mem hpiece with ⟨g, rest, rfl⟩
    rw [hproblem] at hfound
    exact Piece.front_problem_ne_tooDeep g rest hfound

namespace Context

/-- The places where parsing an input reports that an expression is nested too deeply. -/
def deepPlaces (ctx : Context) (path : Option String) (input : Input) : List Span :=
  ((ctx.reported path input).filter (·.problem = .tooDeep)).map (·.loc.span)

/-- They are the places where reading finds this. -/
theorem deepPlaces_perm (ctx : Context) (path : Option String) (input : Input) :
    (ctx.deepPlaces path input).Perm
      (LetCalc.deepPlaces (Parse.stmts input.text.eof input.tokens).findings) := by
  have hjournal : ctx.deepPlaces path input
      = LetCalc.deepPlaces (ctx.parse path input).journal.findings := by
    rw [deepPlaces, reported_eq, List.filter_map, List.map_map]
    rfl
  have hperm := ((ctx.findings_parse path input).filter (·.problem = .tooDeep)).map Finding.span
  change (LetCalc.deepPlaces _).Perm (LetCalc.deepPlaces _) at hperm
  rw [deepPlaces_append, input.deepPlaces_scanFindings, List.nil_append] at hperm
  rwa [hjournal]

/-- The keywords of the parsed statements are those of the statements that were read. -/
theorem keywords_parse (ctx : Context) (path : Option String) (input : Input) :
    (ctx.parse path input).value.stmts.map Stmt.keyword
      = (Parse.stmts input.text.eof input.tokens).value.map Stmt.keyword := by
  have hstmts : (ctx.parse path input).value.stmts.map (Stmt.map Symbol.name)
      = (Parse.stmts input.text.eof input.tokens).value :=
    congrArg Program.stmts (ctx.map_name_parse path input)
  rw [← hstmts, List.map_map]
  apply List.map_congr_left
  intro s _
  cases s <;> rfl

/-- Statements match keywords.  For every source, whatever is wrong with it, the statements of the
program that is parsed are in order those of the keywords that are left when from each place where
an expression is reported as nested too deeply this expression is skipped: each has the keyword that
it stands for, and its place.  If nothing is reported as nested too deeply, there are as many
statements as keywords. -/
theorem stmts_match_keywords (ctx : Context) (path : Option String) (input : Input) :
    let program := (ctx.parse path input).value
    program.path = path ∧
    program.stmts.map Stmt.keyword
      = (unskipped (ctx.deepPlaces path input) input.tokens).keywords ∧
    ((∀ d ∈ ctx.reported path input, d.problem ≠ .tooDeep) →
      program.stmts.length = input.tokens.countP fun token => token.kind.keyword?.isSome) := by
  intro program
  have hwords : program.stmts.map Stmt.keyword
      = (unskipped (ctx.deepPlaces path input) input.tokens).keywords := by
    rcases Parse.stmts_keep input.text.eof input.tokens input.nodup_spans with
      ⟨used, -, -, hkeep⟩
    have hall := hkeep (ctx.deepPlaces path input) fun span _ =>
      (ctx.deepPlaces_perm path input).mem_iff
    rw [Parse.stmts_rest, unskipped_nil] at hall
    rw [ctx.keywords_parse, hall]
    exact (List.append_nil _).symm
  refine ⟨congrArg Program.path (ctx.map_name_parse path input), hwords, ?_⟩
  intro hshallow
  have hplaces : ctx.deepPlaces path input = [] := by
    rw [deepPlaces, List.map_eq_nil_iff, List.filter_eq_nil_iff]
    intro d hd
    simpa using hshallow d hd
  have hlength := congrArg List.length hwords
  rw [hplaces, unskipped_of_nil, List.length_map] at hlength
  rw [hlength, Tokens.keywords, List.length_filterMap_eq_countP]
  simp

end Context

end LetCalc
