import LetCalc.Proofs.Program.Acceptance
import LetCalc.Proofs.Token.Pieces

/-!
# Sources one after the other

A keyword ends whatever is being read as the end of the file does: it starts no operand, it is no
operator, and no token that a statement needs.  So reading some tokens goes the same way whether the
file ends behind them or a statement follows, and the statement is read as if nothing stood in front
of it.  Only a reading that gives up an expression is different, since it skips keywords too.

The same holds of the scanner and a line feed, which belongs to no token: what stands in front of it
is cut into the same pieces whatever follows, unless a comment is left open.

Main results:

- Theorem `Parse.reading_mirrors`: an expression is read the same way before a keyword and before
  the end of the file.
- Theorem `pieces_newline`: a line feed parts the pieces of a text.
- Theorem `Context.parse_joined`: two sources on lines of their own are parsed as each of them.
-/

namespace LetCalc

namespace Parse

/-! ## The same tokens before others -/

/-- Tokens of the same kinds, wherever they stand, and behind them `tail`. -/
def SameBefore (tail tokens tokens' : Tokens) : Prop :=
  ∃ more, tokens' = more ++ tail ∧ more.kinds = tokens.kinds

/-- The file ends, or a keyword is in view. -/
def AtKeyword (tokens : Tokens) : Prop := ∀ token ∈ tokens.head?, token.kind.keyword?.isSome = true

theorem SameBefore.cons {tail rest tokens' : Tokens} {token : Token String}
    (h : SameBefore tail (token :: rest) tokens') :
    ∃ token' rest', tokens' = token' :: rest' ∧ token'.kind = token.kind ∧
      SameBefore tail rest rest' := by
  rcases h with ⟨more, rfl, hkinds⟩
  rcases Tokens.kinds_eq_cons hkinds with ⟨token', rest', rfl, hkind, hrest⟩
  exact ⟨token', rest' ++ tail, rfl, hkind, rest', rfl, hrest⟩

theorem sameBefore_nil {tail tokens' : Tokens} (h : SameBefore tail [] tokens') :
    tokens' = tail := by
  rcases h with ⟨more, rfl, hkinds⟩
  rw [List.map_eq_nil_iff.1 hkinds, List.nil_append]

/-- What holds of the kind in view, if any, and of the one behind holds of the one in view. -/
theorem SameBefore.forall_head? {P : Kind String → Prop} {tail tokens tokens' : Tokens}
    (h : SameBefore tail tokens tokens') (htokens : ∀ token ∈ tokens.head?, P token.kind)
    (htail : ∀ token ∈ tail.head?, P token.kind) : ∀ token ∈ tokens'.head?, P token.kind := by
  cases tokens with
  | nil =>
    rw [sameBefore_nil h]
    exact htail
  | cons token rest =>
    rcases h.cons with ⟨token', rest', rfl, hkind, -⟩
    rintro _ ⟨⟩
    rw [hkind]
    exact htokens token rfl

theorem lead_of_keyword? {kind : Kind String} (h : kind.keyword?.isSome = true) :
    kind.lead = .none := by
  cases kind <;> first | rfl | cases h

theorem binOp?_of_keyword? {kind : Kind String} (h : kind.keyword?.isSome = true) :
    kind.binOp? = none := by
  cases kind <;> first | rfl | cases h

/-! ## Readings that go the same way -/

/-- The second reading goes the way of the first with `tail` behind it: the values are the same as
far as `f` can tell, the same tokens are left, and as much is found.  Where the first reading gives
up an expression this is asked only if nothing is behind it. -/
def Mirrors {α β : Type} (tail : Tokens) (f : α → β) (first second : Parsed α) : Prop :=
  tail = [] ∨ ¬ TooDeep first.findings →
    f second.value = f first.value ∧ SameBefore tail first.rest second.rest ∧
      second.findings.length = first.findings.length

section Mirrors

variable {α β γ δ : Type} {tail : Tokens} {f : α → β} {g : γ → δ}

/-- Readings that go the same way can be gone on with. -/
theorem Mirrors.andThen {first second : Parsed α} {next next' : α → Tokens → Parsed γ}
    (h : Mirrors tail f first second)
    (hnext : ∀ x x' tokens tokens', f x' = f x → SameBefore tail tokens tokens' →
      Mirrors tail g (next x tokens) (next' x' tokens')) :
    Mirrors tail g (first.andThen next) (second.andThen next') := by
  intro hdeep
  rw [Parsed.findings_andThen, tooDeep_append, not_or] at hdeep
  rcases h (hdeep.imp_right And.left) with ⟨hvalue, hrest, hlength⟩
  rcases hnext _ _ _ _ hvalue hrest (hdeep.imp_right And.right) with ⟨hvalue', hrest', hlength'⟩
  refine ⟨hvalue', hrest', ?_⟩
  rw [Parsed.findings_andThen, Parsed.findings_andThen, List.length_append, List.length_append,
    hlength, hlength']

/-- A token of another kind is reported and not read. -/
theorem expect_of_ne (eof : Span) {kind : Kind String} (goal : Goal) {tokens : Tokens}
    (h : ∀ token ∈ tokens.head?, token.kind ≠ kind) :
    expect eof kind goal tokens = ⟨(), tokens, [unexpected eof (.token kind) goal tokens]⟩ := by
  cases tokens with
  | nil => rfl
  | cons token rest => exact if_neg (h token rfl)

/-- Expecting a token goes the same way, as the token is no keyword. -/
theorem expect_mirrors (eof eof' : Span) (htail : AtKeyword tail) {kind : Kind String}
    (hkind : kind.keyword? = none) (goal : Goal) {tokens tokens' : Tokens}
    (h : SameBefore tail tokens tokens') :
    Mirrors tail id (expect eof kind goal tokens) (expect eof' kind goal tokens') := by
  intro _
  by_cases hexpected : ∀ token ∈ tokens.head?, token.kind ≠ kind
  · have hexpected' := h.forall_head? (P := (· ≠ kind)) hexpected <| by
      rintro token htoken rfl
      have hword := htail token htoken
      rw [hkind] at hword
      cases hword
    rw [expect_of_ne eof goal hexpected, expect_of_ne eof' goal hexpected']
    exact ⟨rfl, h, rfl⟩
  · cases tokens with
    | nil => exact absurd (by simp) hexpected
    | cons token rest =>
      have hsame : token.kind = kind := by simpa using hexpected
      rcases h.cons with ⟨token', rest', rfl, hkind', hrest⟩
      rw [expect_of_kind eof goal rest hsame, expect_of_kind eof' goal rest' (hkind'.trans hsame)]
      exact ⟨rfl, hrest, rfl⟩

/-- Skipping looks at kinds only. -/
theorem skipExpression_kinds (depth : Nat) {tokens tokens' : Tokens}
    (h : tokens'.kinds = tokens.kinds) :
    (skipExpression depth tokens').kinds = (skipExpression depth tokens).kinds := by
  induction tokens generalizing depth tokens' with
  | nil =>
    rw [List.map_eq_nil_iff.1 h]
  | cons token rest ih =>
    rcases Tokens.kinds_eq_cons h with ⟨token', rest', rfl, hkind, hrest⟩
    unfold skipExpression
    rw [hkind]
    split
    · exact h
    · exact h
    · exact ih _ hrest
    · exact ih _ hrest
    · exact ih _ hrest

theorem giveUp_mirrors (eof eof' : Span) {tokens tokens' : Tokens}
    (h : SameBefore tail tokens tokens') :
    Mirrors tail Expr.tree (giveUp eof tokens) (giveUp eof' tokens') := by
  intro hdeep
  obtain rfl := hdeep.resolve_right (not_not_intro (tooDeep_giveUp eof tokens))
  rcases h with ⟨more, rfl, hkinds⟩
  rw [List.append_nil]
  exact ⟨rfl, ⟨_, (List.append_nil _).symm, skipExpression_kinds 0 hkinds⟩, rfl⟩

/-- An operand that is missing is missing before a keyword too. -/
theorem nothing_mirrors (eof eof' : Span) (htail : AtKeyword tail) (room : Nat) (goal : Goal)
    {tokens tokens' : Tokens} (h : SameBefore tail tokens tokens')
    (hlead : ∀ token ∈ tokens.head?, token.kind.lead = .none) :
    Mirrors tail Expr.tree
      ⟨.hole (tokens.view eof).span, tokens, [unexpected eof .operand goal tokens]⟩
      (operand eof' room goal tokens') := by
  intro _
  have hlead' := h.forall_head? (P := (·.lead = .none)) hlead
    fun token htoken => lead_of_keyword? (htail token htoken)
  cases tokens' with
  | nil =>
    rw [operand_nil]
    exact ⟨rfl, h, rfl⟩
  | cons token rest =>
    rw [operand_none eof' room goal rest (hlead' token rfl)]
    exact ⟨rfl, h, rfl⟩

/-- What ends a fold ends it before a keyword too. -/
theorem SameBefore.stops {floor : Prec} {tokens tokens' : Tokens}
    (h : SameBefore tail tokens tokens') (htail : AtKeyword tail) (hstop : Stops floor tokens) :
    Stops floor tokens' := by
  refine h.forall_head? (P := fun kind => ∀ op ∈ kind.binOp?, ¬ floor < op.prec) hstop ?_
  intro token htoken op hop
  rw [binOp?_of_keyword? (htail token htoken)] at hop
  cases hop

end Mirrors

/-- An expression is read the same way before a keyword and before the end of the file. -/
theorem reading_mirrors (eof eof' : Span) {tail : Tokens} (htail : AtKeyword tail) :
    (∀ room goal tokens, ∀ tokens', SameBefore tail tokens tokens' →
      Mirrors tail Expr.tree (operand eof room goal tokens) (operand eof' room goal tokens')) ∧
    (∀ room floor left tokens, ∀ left' tokens', Expr.tree left' = left.tree →
      SameBefore tail tokens tokens' →
      Mirrors tail Expr.tree (fold eof room floor left tokens)
        (fold eof' room floor left' tokens')) ∧
    ∀ room floor goal tokens, ∀ tokens', SameBefore tail tokens tokens' →
      Mirrors tail Expr.tree (expression eof room floor goal tokens)
        (expression eof' room floor goal tokens') := by
  refine reading_induction eof
    (P := fun room goal tokens parsed => ∀ tokens', SameBefore tail tokens tokens' →
      Mirrors tail Expr.tree parsed (operand eof' room goal tokens'))
    (Q := fun room floor left tokens parsed => ∀ left' tokens', Expr.tree left' = left.tree →
      SameBefore tail tokens tokens' →
      Mirrors tail Expr.tree parsed (fold eof' room floor left' tokens'))
    (R := fun room floor goal tokens parsed => ∀ tokens', SameBefore tail tokens tokens' →
      Mirrors tail Expr.tree parsed (expression eof' room floor goal tokens'))
    ?nothing ?number ?name ?sign ?group ?full ?stop ?operator ?fullFold ?whole
  case nothing =>
    intro room goal tokens hlead tokens' h
    exact nothing_mirrors eof eof' htail room goal h hlead
  case number =>
    intro room goal token v rest hlead tokens' h _
    rcases h.cons with ⟨token', rest', rfl, hkind, hrest⟩
    rw [operand_number eof' room goal rest' (hkind ▸ hlead)]
    exact ⟨rfl, hrest, rfl⟩
  case name =>
    intro room goal token x rest hlead tokens' h _
    rcases h.cons with ⟨token', rest', rfl, hkind, hrest⟩
    rw [operand_name eof' room goal rest' (hkind ▸ hlead)]
    exact ⟨rfl, hrest, rfl⟩
  case sign =>
    intro room goal token op rest hlead ih tokens' h
    rcases h.cons with ⟨token', rest', rfl, hkind, hrest⟩
    rw [operand_sign eof' room goal rest' (hkind ▸ hlead)]
    refine (ih rest' hrest).andThen ?_
    intro e e' tokens tokens' he h _
    exact ⟨congrArg (ExprTree.unary op) he, h, rfl⟩
  case group =>
    intro room goal token rest hlead ih tokens' h
    rcases h.cons with ⟨token', rest', rfl, hkind, hrest⟩
    rw [operand_group eof' room goal rest' (hkind ▸ hlead)]
    refine (ih rest' hrest).andThen ?_
    intro e e' tokens tokens' he h
    refine (expect_mirrors eof eof' htail rfl .group h).andThen ?_
    intro _ _ tokens tokens' _ h _
    exact ⟨he, h, rfl⟩
  case full =>
    intro goal token rest hlead tokens' h
    rcases h.cons with ⟨token', rest', rfl, hkind, hrest⟩
    rw [operand_full eof' goal rest' (hkind ▸ hlead)]
    exact giveUp_mirrors eof eof' h
  case stop =>
    intro room floor left tokens hstop left' tokens' hleft h _
    rw [fold_stop eof' room floor left' (h.stops htail hstop)]
    exact ⟨hleft, h, rfl⟩
  case operator =>
    intro room floor left token op rest hop hprec ihRight ihFold left' tokens' hleft h
    rcases h.cons with ⟨token', rest', rfl, hkind, hrest⟩
    rw [fold_operator eof' room rest' left' (hkind ▸ hop) hprec]
    refine (ihRight rest' hrest).andThen ?_
    intro right right' tokens tokens' hright h
    exact ihFold _ _ _ _ (congrArg₂ (ExprTree.binary op) hleft hright) h
  case fullFold =>
    intro floor left token op rest hop hprec left' tokens' _ h
    rcases h.cons with ⟨token', rest', rfl, hkind, hrest⟩
    rw [fold_full eof' rest' left' (hkind ▸ hop) hprec]
    exact giveUp_mirrors eof eof' h
  case whole =>
    intro room floor goal tokens ihOperand ihFold tokens' h
    refine (ihOperand tokens' h).andThen ?_
    intro left left' tokens tokens' hleft h
    exact ihFold left tokens left' tokens' hleft h

/-! ## Statements before others -/

/-- A name that is missing is reported, and another stands in. -/
theorem boundName_of_ne (eof : Span) {tokens : Tokens}
    (h : ∀ token ∈ tokens.head?, ∀ x, token.kind ≠ .identifier x) :
    boundName eof tokens
      = ⟨missingName, tokens, [unexpected eof .identifier .letStatement tokens]⟩ := by
  cases tokens with
  | nil => rfl
  | cons token rest =>
    rw [boundName]
    split
    · next x hlead => exact absurd (Kind.lead_eq_name.1 hlead) (h token rfl x)
    · rfl

section Statements

variable (eof eof' : Span) {tail : Tokens} (htail : AtKeyword tail)

include htail

theorem boundName_mirrors {tokens tokens' : Tokens} (h : SameBefore tail tokens tokens') :
    Mirrors tail id (boundName eof tokens) (boundName eof' tokens') := by
  intro _
  by_cases hname : ∀ token ∈ tokens.head?, ∀ x, token.kind ≠ .identifier x
  · have hname' := h.forall_head? (P := fun kind => ∀ x, kind ≠ .identifier x) hname <| by
      rintro token htoken x hx
      have hword := htail token htoken
      rw [hx] at hword
      cases hword
    rw [boundName_of_ne eof hname, boundName_of_ne eof' hname']
    exact ⟨rfl, h, rfl⟩
  · cases tokens with
    | nil => exact absurd (by simp) hname
    | cons token rest =>
      obtain ⟨x, hx⟩ : ∃ x, token.kind = .identifier x := by simpa using hname
      rcases h.cons with ⟨token', rest', rfl, hkind, hrest⟩
      rw [boundName_of_kind eof rest hx, boundName_of_kind eof' rest' (hkind.trans hx)]
      exact ⟨rfl, hrest, rfl⟩

/-- A statement is read the same way before a keyword and before the end of the file. -/
theorem stmt_mirrors (word : Kind.Keyword) (span span' : Span) {tokens tokens' : Tokens}
    (h : SameBefore tail tokens tokens') :
    Mirrors tail Stmt.tree (stmt eof word span tokens) (stmt eof' word span' tokens') := by
  have hexpression := (reading_mirrors eof eof' htail).2.2
  cases word with
  | bind =>
    refine (boundName_mirrors eof eof' htail h).andThen ?_
    intro x x' tokens tokens' hx h
    refine (expect_mirrors eof eof' htail rfl .letStatement h).andThen ?_
    intro _ _ tokens tokens' _ h
    refine (hexpression maxDepth .bottom .initializer tokens tokens' h).andThen ?_
    intro e e' tokens tokens' he h
    refine (expect_mirrors eof eof' htail rfl .letStatement h).andThen ?_
    intro _ _ tokens tokens' _ h _
    exact ⟨congrArg₂ StmtTree.bind hx he, h, rfl⟩
  | print =>
    refine (hexpression maxDepth .bottom .printStatement tokens tokens' h).andThen ?_
    intro e e' tokens tokens' he h
    refine (expect_mirrors eof eof' htail rfl .printStatement h).andThen ?_
    intro _ _ tokens tokens' _ h _
    exact ⟨congrArg StmtTree.print he, h, rfl⟩

/-- Statements before others are read as they are before the end of the file, and the others as if
nothing stood in front of them. -/
theorem stmts_join {tokens tokens' : Tokens} (h : SameBefore tail tokens tokens')
    (hdeep : tail = [] ∨ ¬ TooDeep (stmts eof tokens).findings) :
    (stmts eof' tokens').value.map Stmt.tree
        = (stmts eof tokens).value.map Stmt.tree ++ (stmts eof' tail).value.map Stmt.tree ∧
      (stmts eof' tokens').findings.length
        = (stmts eof tokens).findings.length + (stmts eof' tail).findings.length := by
  refine stmts_induction eof (P := fun tokens parsed => ∀ tokens', SameBefore tail tokens tokens' →
    tail = [] ∨ ¬ TooDeep parsed.findings →
    (stmts eof' tokens').value.map Stmt.tree
        = parsed.value.map Stmt.tree ++ (stmts eof' tail).value.map Stmt.tree ∧
      (stmts eof' tokens').findings.length
        = parsed.findings.length + (stmts eof' tail).findings.length)
    ?nil ?keyword ?skip tokens tokens' h hdeep
  case nil =>
    intro tokens' h _
    rw [sameBefore_nil h]
    simp
  case keyword =>
    intro token word rest hword ih tokens' h hdeep
    rcases h.cons with ⟨token', rest', rfl, hkind, hrest⟩
    simp only [Parsed.findings_andThen, tooDeep_append, not_or, List.append_nil] at hdeep
    rcases stmt_mirrors eof eof' htail word token.span token'.span hrest
      (hdeep.imp_right And.left) with ⟨hvalue, hafter, hlength⟩
    rcases ih _ hafter (hdeep.imp_right And.right) with ⟨hvalues, hlengths⟩
    rw [stmts_keyword eof' rest' (hkind ▸ hword)]
    simp only [Parsed.value_andThen, Parsed.findings_andThen, List.map_cons, List.length_append,
      List.cons_append, List.append_nil]
    refine ⟨congrArg₂ List.cons hvalue hvalues, ?_⟩
    omega
  case skip =>
    intro token rest hword ih tokens' h hdeep
    rcases h.cons with ⟨token', rest', rfl, hkind, hrest⟩
    rw [Parsed.findings_andThen, tooDeep_append, not_or] at hdeep
    rcases ih rest' hrest (hdeep.imp_right And.right) with ⟨hvalues, hlengths⟩
    rw [stmts_skip eof' rest' (hkind ▸ hword)]
    simp only [Parsed.value_andThen, Parsed.findings_andThen, List.length_append,
      List.length_singleton]
    refine ⟨hvalues, ?_⟩
    omega

end Statements

/-- Reading looks at kinds only: elsewhere the same statements are read. -/
theorem stmts_of_kinds (eof eof' : Span) {tokens tokens' : Tokens}
    (h : tokens'.kinds = tokens.kinds) :
    (stmts eof' tokens').value.map Stmt.tree = (stmts eof tokens).value.map Stmt.tree ∧
      (stmts eof' tokens').findings.length = (stmts eof tokens).findings.length := by
  have hend : AtKeyword [] := by simp [AtKeyword]
  have hjoin := stmts_join eof eof' hend ⟨tokens', (List.append_nil _).symm, h⟩ (Or.inl rfl)
  rw [stmts_nil] at hjoin
  simpa using hjoin

end Parse

/-! ## Text before a line feed -/

theorem takeWhile_stop {P : Glyph → Bool} {g : Glyph} (hg : P g = false) (xs ys : List Glyph) :
    (xs ++ g :: ys).takeWhile P = xs.takeWhile P := by
  induction xs with
  | nil => simp [hg]
  | cons x xs ih => simp only [List.cons_append, List.takeWhile_cons, ih]

/-- A comment that is closed is closed whatever follows. -/
theorem throughClose_of_append {body closed : List Glyph} (h : throughClose body = some closed)
    (more : List Glyph) : throughClose (body ++ more) = some closed := by
  induction body generalizing closed with
  | nil => cases h
  | cons g rest ih =>
    cases rest with
    | nil => simp [throughClose] at h
    | cons g' rest =>
      have hhead : (g' :: rest ++ more).head? = (g' :: rest).head? := rfl
      rw [throughClose] at h
      rw [List.cons_append, throughClose, hhead]
      split at h
      · next hclose => rwa [if_pos hclose]
      · next hclose =>
        rcases Option.map_eq_some_iff.1 h with ⟨closed', hclosed', rfl⟩
        rw [if_neg hclose, ih hclosed', Option.map_some]

namespace Piece

/-- A slash in front of a line feed is what it is at the end of the text. -/
theorem slash_newline {rest : List Glyph} (h : (slash rest).problem ≠ some .openComment)
    (more : List Glyph) : slash (rest ++ .char '\n' :: more) = slash rest := by
  unfold slash at h
  split at h
  · next body =>
    have hline := takeWhile_stop (P := (· ≠ .char '\n')) (g := .char '\n') rfl
      (.char '/' :: body) more
    exact congrArg (Piece.mk · none none) (congrArg (Glyph.char '/' :: ·) hline)
  · next body =>
    split at h
    · next closed hclosed => simp [slash, hclosed, throughClose_of_append hclosed]
    · simp at h
  · next hline hblock =>
    rcases rest with - | ⟨c | fault, body⟩
    · rfl
    · unfold slash
      split <;> simp_all
    · rfl

/-- The first piece of a text is the same before a line feed, unless it is a comment left open. -/
theorem front_newline {g : Glyph} {rest : List Glyph}
    (h : (front g rest).problem ≠ some .openComment) (more : List Glyph) :
    front g (rest ++ .char '\n' :: more) = front g rest := by
  cases g with
  | malformed fault => rfl
  | char c =>
    have hdigits := takeWhile_stop (P := Glyph.isDigit) (g := .char '\n') rfl rest more
    have hword := takeWhile_stop (P := Glyph.continuesWord) (g := .char '\n') rfl rest more
    by_cases hslash : c = '/'
    · subst hslash
      exact slash_newline h more
    · simp only [front, if_neg hslash, hdigits, hword]

end Piece

theorem pieces_of_front {g : Glyph} {rest after : List Glyph}
    (h : (Piece.front g rest).glyphs ++ after = g :: rest) :
    pieces (g :: rest) = Piece.front g rest :: pieces after := by
  have hafter := List.append_cancel_left (h.trans (Piece.front_append g rest).symm)
  rw [pieces, ← hafter]

/-- A line feed parts the pieces of a text, unless a comment is left open in front of it. -/
theorem pieces_newline {xs : List Glyph}
    (h : ∀ piece ∈ pieces xs, piece.problem ≠ some .openComment) (ys : List Glyph) :
    pieces (xs ++ .char '\n' :: ys) = pieces xs ++ ⟨[.char '\n'], none, none⟩ :: pieces ys := by
  refine pieces_induction (P := fun xs ps => (∀ piece ∈ ps, piece.problem ≠ some .openComment) →
    pieces (xs ++ .char '\n' :: ys) = ps ++ ⟨[.char '\n'], none, none⟩ :: pieces ys) ?_ ?_ xs h
  · intro _
    exact pieces_of_front rfl
  · intro g rest after hfront ih hclosed
    have hsame := Piece.front_newline (hclosed _ (List.mem_cons_self ..)) ys
    have hfront' : (Piece.front g (rest ++ .char '\n' :: ys)).glyphs ++ (after ++ .char '\n' :: ys)
        = g :: (rest ++ .char '\n' :: ys) := by
      rw [hsame, ← List.append_assoc, hfront, List.cons_append]
    rw [List.cons_append, pieces_of_front hfront', hsame, List.cons_append,
      ih fun piece hpiece => hclosed piece (List.mem_cons_of_mem _ hpiece)]

/-- The kinds of the tokens of a text are those of its pieces, wherever it stands. -/
theorem Piece.kinds_journal (p : Pos) (ps : List Piece) :
    (journal p ps).kinds = ps.filterMap Piece.kind := by
  induction ps generalizing p with
  | nil => rfl
  | cons piece ps ih =>
    rw [journal, Journal.kinds_append, ih]
    rcases piece with ⟨glyphs, - | kind, - | problem⟩ <;> rfl

/-- The problems of a text are those of its pieces, wherever it stands. -/
theorem Piece.problems_journal (p : Pos) (ps : List Piece) :
    (journal p ps).findings.map Finding.problem = ps.filterMap Piece.problem := by
  induction ps generalizing p with
  | nil => rfl
  | cons piece ps ih =>
    rw [journal, Journal.findings_append, List.map_append, ih]
    rcases piece with ⟨glyphs, - | kind, - | problem⟩ <;> rfl

namespace Input

/-- The tokens of a source and what is wrong with it are those of its pieces. -/
theorem scan_pieces {bytes : List UInt8} {slices : List (Glyph × List UInt8)}
    (h : Split bytes slices) :
    (ofBytes bytes).tokens.kinds = (pieces (slices.map Prod.fst)).filterMap Piece.kind ∧
      (ofBytes bytes).scanFindings.map Finding.problem
        = (pieces (slices.map Prod.fst)).filterMap Piece.problem := by
  rcases Text.scan_pieces (slices.map Prod.fst) with ⟨body, hscan, hlexical⟩
  constructor
  · rw [tokens, h.text_eq, hscan, Journal.tokens_append, ← Journal.tokens_lexical body, hlexical,
      ← Piece.kinds_journal .start]
    exact congrArg (List.map Token.kind) (List.append_nil _)
  · rw [scanFindings, h.text_eq, Text.findings_opening, List.nil_append, hscan,
      Journal.findings_append, ← Journal.findings_lexical body, hlexical,
      ← Piece.problems_journal .start]
    exact congrArg (List.map Finding.problem) (List.append_nil _)

/-- A line feed parts two sources: the tokens of the first are followed by those of the second, and
so is what is wrong with them, unless a comment is left open in the first. -/
theorem scan_newline {a b : List UInt8}
    (h : ∀ f ∈ (ofBytes a).scanFindings, f.problem ≠ .openComment) :
    (ofBytes (a ++ 10 :: b)).tokens.kinds
        = (ofBytes a).tokens.kinds ++ (ofBytes b).tokens.kinds ∧
      (ofBytes (a ++ 10 :: b)).scanFindings.length
        = (ofBytes a).scanFindings.length + (ofBytes b).scanFindings.length := by
  rcases exists_split a with ⟨slices, hsplit⟩
  rcases exists_split b with ⟨slices', hsplit'⟩
  have hfeed : (Glyph.char '\n').StandsFor [10] b := rfl
  have hbreak : ∀ c ∈ (10 :: b).head?, Utf8.isContinuation c = false := by
    rintro c ⟨⟩
    decide
  have hjoined : Split (a ++ 10 :: b) (slices ++ (.char '\n', [10]) :: slices') :=
    hsplit.append (.cons hfeed hsplit') hbreak
  rcases scan_pieces hsplit with ⟨hkinds, hproblems⟩
  rcases scan_pieces hsplit' with ⟨hkinds', hproblems'⟩
  rcases scan_pieces hjoined with ⟨hjoinedKinds, hjoinedProblems⟩
  have hclosed : ∀ piece ∈ pieces (slices.map Prod.fst), piece.problem ≠ some .openComment := by
    intro piece hpiece hproblem
    have hmem : Problem.openComment ∈ (ofBytes a).scanFindings.map Finding.problem := by
      rw [hproblems]
      exact List.mem_filterMap.2 ⟨piece, hpiece, hproblem⟩
    rcases List.mem_map.1 hmem with ⟨f, hf, hopen⟩
    exact h f hf hopen
  rw [List.map_append, List.map_cons, pieces_newline hclosed, List.filterMap_append]
    at hjoinedKinds hjoinedProblems
  constructor
  · rw [hjoinedKinds, hkinds, hkinds']
    rfl
  · have hlength := congrArg List.length hproblems
    have hlength' := congrArg List.length hproblems'
    have hjoinedLength := congrArg List.length hjoinedProblems
    rw [List.filterMap_cons_none rfl, List.length_append] at hjoinedLength
    rw [List.length_map] at hlength hlength' hjoinedLength
    rw [hlength, hlength']
    exact hjoinedLength

end Input

/-! ## Sources one after the other -/

namespace Context

/-- Two sources on lines of their own are parsed as each of them: unless the first leaves a comment
open or nests an expression too deeply, whatever else is wrong with it, a keyword at the start of
the second parts them.  The statements are those of the first and then those of the second, and so
many errors are counted. -/
theorem parse_joined (ctx : Context) (table table' : Nat) (path path₁ path₂ : Option String)
    (a b : List UInt8)
    (ha : ∀ d ∈ (empty table).reported path₁ (.ofBytes a),
      d.problem ≠ .openComment ∧ d.problem ≠ .tooDeep)
    (hb : ∃ token ∈ (Input.ofBytes b).tokens.head?,
      token.kind = .keywordLet ∨ token.kind = .keywordPrint) :
    let first := (empty table).parse path₁ (.ofBytes a)
    let second := (empty table').parse path₂ (.ofBytes b)
    let joined := ctx.parse path (.ofBytes (a ++ 10 :: b))
    (joined.value.map Symbol.name).trees
        = (first.value.map Symbol.name).trees ++ (second.value.map Symbol.name).trees ∧
      joined.context.errorCount
        = ctx.errorCount + first.context.errorCount + second.context.errorCount := by
  intro first second joined
  have hclosed : ∀ f ∈ (Input.ofBytes a).scanFindings, f.problem ≠ .openComment :=
    fun f hf => (ha _ (mem_reported _ _ _ (List.mem_append_left _ hf))).1
  have hdeep : ¬ Parse.TooDeep
      (Parse.stmts (Input.ofBytes a).text.eof (Input.ofBytes a).tokens).findings := by
    intro hdeep
    rcases (empty table).tooDeep_reported path₁ _ hdeep with ⟨d, hd, hproblem⟩
    exact (ha d hd).2 hproblem
  rcases Input.scan_newline hclosed (b := b) with ⟨hkinds, hscan⟩
  rcases Tokens.kinds_eq_append hkinds with ⟨xs, ys, htokens, hxs, hys⟩
  have hword : Parse.AtKeyword ys := by
    rcases hb with ⟨token, htoken, hkeyword⟩
    rcases List.head?_eq_some_iff.1 htoken with ⟨rest, hrest⟩
    rw [hrest] at hys
    rcases Tokens.kinds_eq_cons hys with ⟨token', rest', rfl, hkind, -⟩
    rintro _ ⟨⟩
    rcases hkeyword with hkeyword | hkeyword <;> rw [hkind, hkeyword] <;> rfl
  -- The tokens of the second source are read as they are alone, and those of the first before them.
  have hfirst := Parse.stmts_join (Input.ofBytes a).text.eof
    (Input.ofBytes (a ++ 10 :: b)).text.eof hword ⟨xs, htokens, hxs⟩ (Or.inr hdeep)
  have hsecond := Parse.stmts_of_kinds (Input.ofBytes b).text.eof
    (Input.ofBytes (a ++ 10 :: b)).text.eof hys
  constructor
  · simp only [first, second, joined, trees_parse]
    rw [hfirst.1, hsecond.1]
  · have hfresh : ∀ n, (empty n).errorCount = 0 := fun _ => rfl
    simp only [first, second, joined, errorCount_parse, length_reported, hfresh]
    rw [hscan, hfirst.2, hsecond.2]
    omega

/-- Broken in many ways: a name and a value are missing, a group is not closed, and the last byte
encodes nothing. -/
theorem parse_joined_broken :
    let a := "let = ((1 + § 99999999999999999999 ;; ) print -x *".toByteArray.data.toList ++ [195]
    let b := "// a comment\nlet x = 2; print (x".toByteArray.data.toList
    let first := (empty 0).parse none (.ofBytes a)
    let second := (empty 1).parse none (.ofBytes b)
    let joined := (empty 2).parse none (.ofBytes (a ++ 10 :: b))
    (∀ d ∈ (empty 0).reported none (.ofBytes a),
        d.problem ≠ .openComment ∧ d.problem ≠ .tooDeep) ∧
      (∃ token ∈ (Input.ofBytes b).tokens.head?,
        token.kind = .keywordLet ∨ token.kind = .keywordPrint) ∧
      (joined.value.map Symbol.name).trees
        = (first.value.map Symbol.name).trees ++ (second.value.map Symbol.name).trees ∧
      joined.context.errorCount = 0 + first.context.errorCount + second.context.errorCount := by
  intro a b first second joined
  have ha : ∀ d ∈ (empty 0).reported none (.ofBytes a),
      d.problem ≠ .openComment ∧ d.problem ≠ .tooDeep := by
    decide +kernel
  have hb : ∃ token ∈ (Input.ofBytes b).tokens.head?,
      token.kind = .keywordLet ∨ token.kind = .keywordPrint := by
    decide +kernel
  exact ⟨ha, hb, parse_joined (empty 2) 0 1 none none none a b ha hb⟩

end Context

end LetCalc
