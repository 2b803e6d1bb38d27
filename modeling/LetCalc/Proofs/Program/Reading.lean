import LetCalc.Program.Parse

/-!
# Reading step by step

What the parser does with the token in view, one equation for each case, and an induction over all
of its steps.  Proofs about the parser use these and never unfold it.

Main results:

- Theorems `operand_sign`, `operand_group` and `fold_operator`: one step, with a level of nesting
  used up.
- Theorem `reading_induction`: what every step keeps holds of every operand and every fold.
- Theorems `stmts_keyword` and `stmts_skip`: the statements of a source, one by one, and
  `stmts_induction` over all of them.
- Theorem `stmts_rest`: reading statements ends at the end of the file only.
-/

namespace LetCalc

namespace Parsed

variable {α β γ : Type}

/-- Three readings in a row may be grouped either way. -/
theorem andThen_assoc (first : Parsed α) (f : α → Tokens → Parsed β) (g : β → Tokens → Parsed γ) :
    (first.andThen f).andThen g = first.andThen fun x tokens => (f x tokens).andThen g := by
  simp only [andThen, List.append_assoc]

/-- After a result without findings, the rest of the reading decides. -/
theorem mk_andThen (x : α) (rest : Tokens) (f : α → Tokens → Parsed β) :
    (Parsed.mk x rest []).andThen f = f x rest := rfl

end Parsed

/-- The kinds of some tokens, without their places. -/
def Tokens.kinds (tokens : Tokens) : List (Kind String) := tokens.map Token.kind

namespace Tokens

@[simp]
theorem kinds_nil : kinds [] = [] := rfl

@[simp]
theorem kinds_cons (token : Token String) (rest : Tokens) :
    kinds (token :: rest) = token.kind :: kinds rest := rfl

@[simp]
theorem kinds_append (xs ys : Tokens) : kinds (xs ++ ys) = kinds xs ++ kinds ys :=
  List.map_append

/-- Tokens that begin with some kind have a token of this kind in view. -/
theorem kinds_eq_cons {tokens : Tokens} {kind : Kind String} {ks : List (Kind String)}
    (h : tokens.kinds = kind :: ks) :
    ∃ token rest, tokens = token :: rest ∧ token.kind = kind ∧ kinds rest = ks :=
  List.map_eq_cons_iff.1 h

/-- Tokens of one kind only are one token. -/
theorem kinds_eq_singleton {tokens : Tokens} {kind : Kind String} (h : tokens.kinds = [kind]) :
    ∃ token, tokens = [token] ∧ token.kind = kind :=
  List.map_eq_singleton_iff.1 h

/-- Tokens whose kinds fall into two parts fall into two parts. -/
theorem kinds_eq_append {tokens : Tokens} {ks ks' : List (Kind String)}
    (h : tokens.kinds = ks ++ ks') :
    ∃ xs ys, tokens = xs ++ ys ∧ kinds xs = ks ∧ kinds ys = ks' :=
  List.map_eq_append_iff.1 h

end Tokens

namespace Parse

/-! ## Expected tokens -/

/-- A token of the expected kind is read. -/
theorem expect_of_kind (eof : Span) {token : Token String} {kind : Kind String} (goal : Goal)
    (rest : Tokens) (h : token.kind = kind) :
    expect eof kind goal (token :: rest) = ⟨(), rest, []⟩ := by
  simp [expect, h]

/-- Only a token of the expected kind is read without a finding. -/
theorem expect_clean {eof : Span} {kind : Kind String} {goal : Goal} {tokens : Tokens}
    (h : (expect eof kind goal tokens).findings = []) :
    ∃ token, token.kind = kind ∧ tokens = token :: (expect eof kind goal tokens).rest := by
  unfold expect at h ⊢
  split at h
  · next token rest =>
    split at h
    · next hkind => exact ⟨token, hkind, by simp [hkind]⟩
    · simp at h
  · simp at h

/-! ## Operands -/

section Steps

variable (eof : Span) (room : Nat) (goal : Goal) (rest : Tokens)

theorem operand_nil :
    operand eof room goal [] = ⟨.hole eof, [], [unexpected eof .operand goal []]⟩ := by
  unfold operand
  rfl

theorem operand_number {token : Token String} {v : UInt64} (h : token.kind.lead = .number v) :
    operand eof room goal (token :: rest) = ⟨.lit token.span v, rest, []⟩ := by
  unfold operand
  simp [h]

theorem operand_name {token : Token String} {x : String} (h : token.kind.lead = .name x) :
    operand eof room goal (token :: rest) = ⟨.var token.span x, rest, []⟩ := by
  unfold operand
  simp [h]

/-- A sign uses up one level for its operand. -/
theorem operand_sign {token : Token String} {op : UnOp} (h : token.kind.lead = .sign op) :
    operand eof (room + 1) goal (token :: rest)
      = (expression eof room .unary .signedOperand rest).andThen fun e tokens =>
        ⟨.unary token.span op e, tokens, []⟩ := by
  rw [expression, Parsed.andThen_assoc, operand]
  simp [h]

/-- A group uses up one level for the expression in it. -/
theorem operand_group {token : Token String} (h : token.kind.lead = .group) :
    operand eof (room + 1) goal (token :: rest)
      = (expression eof room .bottom .group rest).andThen fun e tokens =>
        (expect eof .rightParen .group tokens).andThen fun _ tokens => ⟨e, tokens, []⟩ := by
  rw [expression, Parsed.andThen_assoc, operand]
  simp [h]

/-- Without room neither a sign nor a group is read. -/
theorem operand_full {token : Token String}
    (h : token.kind.lead = .group ∨ ∃ op, token.kind.lead = .sign op) :
    operand eof 0 goal (token :: rest) = giveUp eof (token :: rest) := by
  rcases h with h | ⟨op, h⟩ <;> · rw [operand]; simp [h]

theorem operand_none {token : Token String} (h : token.kind.lead = .none) :
    operand eof room goal (token :: rest)
      = ⟨.hole token.span, token :: rest, [unexpected eof .operand goal (token :: rest)]⟩ := by
  unfold operand
  simp [h]

/-! ## Folds -/

/-- No operator in view binds tighter than `floor`. -/
def Stops (floor : Prec) (tokens : Tokens) : Prop :=
  ∀ token ∈ tokens.head?, ∀ op ∈ token.kind.binOp?, ¬ floor < op.prec

/-- Folding ends at a token that binds no tighter than the floor. -/
theorem fold_stop (floor : Prec) (left : Expr String) {tokens : Tokens} (h : Stops floor tokens) :
    fold eof room floor left tokens = ⟨left, tokens, []⟩ := by
  unfold fold
  split
  · rfl
  · next token rest =>
    cases hop : token.kind.binOp? with
    | none => rfl
    | some op =>
      have hnot : ¬ floor < op.prec := h token rfl op hop
      simp [hnot]

/-- An operator uses up one level for its right operand and for all further operators. -/
theorem fold_operator {floor : Prec} (left : Expr String) {token : Token String} {op : BinOp}
    (hop : token.kind.binOp? = some op) (hprec : floor < op.prec) :
    fold eof (room + 1) floor left (token :: rest)
      = (expression eof room op.prec .rightOperand rest).andThen fun right tokens =>
        fold eof room floor (.binary left.span op left right) tokens := by
  rw [expression, Parsed.andThen_assoc, fold]
  simp [hop, hprec]

/-- Without room no operator is folded. -/
theorem fold_full {floor : Prec} (left : Expr String) {token : Token String} {op : BinOp}
    (hop : token.kind.binOp? = some op) (hprec : floor < op.prec) :
    fold eof 0 floor left (token :: rest) = giveUp eof (token :: rest) := by
  rw [fold]
  simp [hop, hprec]

end Steps

theorem stops_nil (floor : Prec) : Stops floor [] := by
  intro token htoken
  cases htoken

theorem stops_cons {floor : Prec} {token : Token String} {rest : Tokens} :
    Stops floor (token :: rest) ↔ ∀ op ∈ token.kind.binOp?, ¬ floor < op.prec := by
  constructor
  · intro h
    exact h token rfl
  · intro h token' htoken'
    cases htoken'
    exact h

/-- A token that is no operator ends every fold. -/
theorem stops_of_binOp?_eq_none {token : Token String} (h : token.kind.binOp? = none) (floor : Prec)
    (rest : Tokens) : Stops floor (token :: rest) := by
  rw [stops_cons, h]
  intro op hop
  cases hop

/-- No operator binds tighter than products do. -/
theorem stops_of_not_lt {floor : Prec} (h : ¬ floor < .multiplicative) (tokens : Tokens) :
    Stops floor tokens := by
  intro token _ op _ hlt
  have hrank : op.prec.rank ≤ Prec.rank .multiplicative := by cases op <;> decide
  exact h (Nat.lt_of_lt_of_le hlt hrank)

/-- Either folding ends, or an operator is in view that binds tighter. -/
theorem stops_or_operator (floor : Prec) (tokens : Tokens) :
    Stops floor tokens ∨ ∃ token rest op,
      tokens = token :: rest ∧ token.kind.binOp? = some op ∧ floor < op.prec := by
  cases tokens with
  | nil => exact Or.inl (stops_nil floor)
  | cons token rest =>
    cases hop : token.kind.binOp? with
    | none => exact Or.inl (stops_of_binOp?_eq_none hop floor rest)
    | some op =>
      by_cases hprec : floor < op.prec
      · exact Or.inr ⟨token, rest, op, rfl, hop, hprec⟩
      · refine Or.inl (stops_cons.2 ?_)
        intro op' hop'
        have hsame : op = op' := Option.some.inj (hop.symm.trans hop')
        rwa [← hsame]

/-! ## All steps -/

/-- What every step keeps holds of every operand, every fold and every expression: `P` of operands,
`Q` of folds onto a left operand, and `R` of expressions. -/
theorem reading_induction (eof : Span)
    {P : Nat → Goal → Tokens → Parsed (Expr String) → Prop}
    {Q : Nat → Prec → Expr String → Tokens → Parsed (Expr String) → Prop}
    {R : Nat → Prec → Goal → Tokens → Parsed (Expr String) → Prop}
    (nothing : ∀ room goal (tokens : Tokens), (∀ token ∈ tokens.head?, token.kind.lead = .none) →
      P room goal tokens
        ⟨.hole (tokens.view eof).span, tokens, [unexpected eof .operand goal tokens]⟩)
    (number : ∀ room goal token v rest, token.kind.lead = .number v →
      P room goal (token :: rest) ⟨.lit token.span v, rest, []⟩)
    (name : ∀ room goal token x rest, token.kind.lead = .name x →
      P room goal (token :: rest) ⟨.var token.span x, rest, []⟩)
    (sign : ∀ room goal token op rest, token.kind.lead = .sign op →
      R room .unary .signedOperand rest (expression eof room .unary .signedOperand rest) →
      P (room + 1) goal (token :: rest)
        ((expression eof room .unary .signedOperand rest).andThen fun e tokens =>
          ⟨.unary token.span op e, tokens, []⟩))
    (group : ∀ room goal token rest, token.kind.lead = .group →
      R room .bottom .group rest (expression eof room .bottom .group rest) →
      P (room + 1) goal (token :: rest)
        ((expression eof room .bottom .group rest).andThen fun e tokens =>
          (expect eof .rightParen .group tokens).andThen fun _ tokens => ⟨e, tokens, []⟩))
    (full : ∀ goal token rest, token.kind.lead = .group ∨ (∃ op, token.kind.lead = .sign op) →
      P 0 goal (token :: rest) (giveUp eof (token :: rest)))
    (stop : ∀ room floor left tokens, Stops floor tokens →
      Q room floor left tokens ⟨left, tokens, []⟩)
    (operator : ∀ room floor left token op rest, token.kind.binOp? = some op → floor < op.prec →
      R room op.prec .rightOperand rest (expression eof room op.prec .rightOperand rest) →
      (∀ left tokens, Q room floor left tokens (fold eof room floor left tokens)) →
      Q (room + 1) floor left (token :: rest)
        ((expression eof room op.prec .rightOperand rest).andThen fun right tokens =>
          fold eof room floor (.binary left.span op left right) tokens))
    (fullFold : ∀ floor left token op rest, token.kind.binOp? = some op → floor < op.prec →
      Q 0 floor left (token :: rest) (giveUp eof (token :: rest)))
    (whole : ∀ room floor goal tokens,
      P room goal tokens (operand eof room goal tokens) →
      (∀ left tokens, Q room floor left tokens (fold eof room floor left tokens)) →
      R room floor goal tokens (expression eof room floor goal tokens)) :
    (∀ room goal tokens, P room goal tokens (operand eof room goal tokens)) ∧
      (∀ room floor left tokens, Q room floor left tokens (fold eof room floor left tokens)) ∧
      ∀ room floor goal tokens,
        R room floor goal tokens (expression eof room floor goal tokens) := by
  have operandStep : ∀ room, (∀ less, room = less + 1 → ∀ floor goal tokens,
        R less floor goal tokens (expression eof less floor goal tokens)) →
      ∀ goal tokens, P room goal tokens (operand eof room goal tokens) := by
    intro room ih goal tokens
    cases tokens with
    | nil => exact operand_nil eof room goal ▸ nothing room goal [] (by simp)
    | cons token rest =>
      cases hlead : token.kind.lead with
      | number v =>
        rw [operand_number eof room goal rest hlead]
        exact number room goal token v rest hlead
      | name x =>
        rw [operand_name eof room goal rest hlead]
        exact name room goal token x rest hlead
      | sign op =>
        cases room with
        | zero =>
          rw [operand_full eof goal rest (Or.inr ⟨op, hlead⟩)]
          exact full goal token rest (Or.inr ⟨op, hlead⟩)
        | succ room =>
          rw [operand_sign eof room goal rest hlead]
          exact sign room goal token op rest hlead (ih room rfl _ _ _)
      | group =>
        cases room with
        | zero =>
          rw [operand_full eof goal rest (Or.inl hlead)]
          exact full goal token rest (Or.inl hlead)
        | succ room =>
          rw [operand_group eof room goal rest hlead]
          exact group room goal token rest hlead (ih room rfl _ _ _)
      | none =>
        rw [operand_none eof room goal rest hlead]
        exact nothing room goal (token :: rest) (by simp [hlead])
  -- Operands and folds at one room follow from expressions and folds with one level less.
  have step : ∀ room,
      (∀ goal tokens, P room goal tokens (operand eof room goal tokens)) ∧
        ∀ floor left tokens, Q room floor left tokens (fold eof room floor left tokens) := by
    intro room
    induction room with
    | zero =>
      refine ⟨operandStep 0 (by simp), ?_⟩
      intro floor left tokens
      rcases stops_or_operator floor tokens with hstop | ⟨token, rest, op, rfl, hop, hprec⟩
      · exact fold_stop eof 0 floor left hstop ▸ stop 0 floor left tokens hstop
      · rw [fold_full eof rest left hop hprec]
        exact fullFold floor left token op rest hop hprec
    | succ room ih =>
      rcases ih with ⟨ihOperand, ihFold⟩
      have ihExpression : ∀ floor goal tokens,
          R room floor goal tokens (expression eof room floor goal tokens) := by
        intro floor goal tokens
        exact whole room floor goal tokens (ihOperand goal tokens) (ihFold floor)
      constructor
      · apply operandStep
        intro less hless
        cases hless
        exact ihExpression
      · intro floor left tokens
        rcases stops_or_operator floor tokens with hstop | ⟨token, rest, op, rfl, hop, hprec⟩
        · rw [fold_stop eof (room + 1) floor left hstop]
          exact stop (room + 1) floor left tokens hstop
        · rw [fold_operator eof room rest left hop hprec]
          exact operator room floor left token op rest hop hprec (ihExpression _ _ _) (ihFold floor)
  refine ⟨fun room => (step room).1, fun room => (step room).2, ?_⟩
  intro room floor goal tokens
  exact whole room floor goal tokens ((step room).1 goal tokens) ((step room).2 floor)

/-! ## Statements -/

/-- Reads a statement after its keyword, which stands at `span`. -/
def stmt (eof : Span) (word : Kind.Keyword) (span : Span) (tokens : Tokens) :
    Parsed (Stmt String) :=
  match word with
  | .bind => bindStmt eof span tokens
  | .print => printStmt eof span tokens

theorem stmt_rest_suffix (eof : Span) (word : Kind.Keyword) (span : Span) (tokens : Tokens) :
    (stmt eof word span tokens).rest <:+ tokens := by
  cases word with
  | bind => exact bindStmt_rest_suffix eof span tokens
  | print => exact printStmt_rest_suffix eof span tokens

/-- The statements of a source, with what was found on the way. -/
def stmts (eof : Span) (tokens : Tokens) : Parsed (List (Stmt String)) :=
  let (read, found, rest) := stmtsFrom eof #[] #[] tokens
  ⟨read.toList, rest, found.toList⟩

theorem program_eq (path : Option String) (eof : Span) (tokens : Tokens) :
    program path eof tokens
      = ⟨⟨path, (tokens.view eof).span, (stmts eof tokens).value⟩, (stmts eof tokens).rest,
        (stmts eof tokens).findings⟩ :=
  rfl

private theorem stmtsFrom_keyword (eof : Span) (read : Array (Stmt String))
    (found : Array Finding) {token : Token String} {word : Kind.Keyword} (rest : Tokens)
    (h : token.kind.keyword? = some word) :
    stmtsFrom eof read found (token :: rest)
      = stmtsFrom eof (read.push (stmt eof word token.span rest).value)
        (found ++ (stmt eof word token.span rest).findings)
        (stmt eof word token.span rest).rest := by
  cases word <;> · rw [stmtsFrom, h]; rfl

private theorem stmtsFrom_skip (eof : Span) (read : Array (Stmt String)) (found : Array Finding)
    {token : Token String} (rest : Tokens) (h : token.kind.keyword? = none) :
    stmtsFrom eof read found (token :: rest)
      = stmtsFrom eof read (found.push (unexpected eof .statement .program (token :: rest)))
        rest := by
  rw [stmtsFrom, h]

/-- What was read before stays in front of what is read next. -/
private theorem stmtsFrom_acc (eof : Span) (read : Array (Stmt String)) (found : Array Finding)
    (tokens : Tokens) :
    (stmtsFrom eof read found tokens).1.toList = read.toList ++ (stmts eof tokens).value ∧
      (stmtsFrom eof read found tokens).2.1.toList
        = found.toList ++ (stmts eof tokens).findings ∧
      (stmtsFrom eof read found tokens).2.2 = (stmts eof tokens).rest := by
  induction hlength : tokens.length using Nat.strongRecOn generalizing read found tokens with
  | _ length ih =>
    subst hlength
    cases tokens with
    | nil => simp [stmts, stmtsFrom]
    | cons token rest =>
      cases hword : token.kind.keyword? with
      | some word =>
        have hless : (stmt eof word token.span rest).rest.length < (token :: rest).length :=
          Nat.lt_succ_of_le (stmt_rest_suffix eof word token.span rest).length_le
        have hgo := fun read found => ih _ hless read found _ rfl
        rw [stmts, stmtsFrom_keyword eof read found rest hword,
          stmtsFrom_keyword eof #[] #[] rest hword]
        simp [hgo]
      | none =>
        have hgo := fun read found =>
          ih rest.length (Nat.lt_succ_self _) read found rest rfl
        rw [stmts, stmtsFrom_skip eof read found rest hword, stmtsFrom_skip eof #[] #[] rest hword]
        simp [hgo]

theorem stmts_nil (eof : Span) : stmts eof [] = ⟨[], [], []⟩ := by
  simp [stmts, stmtsFrom]

/-- A keyword starts a statement, and reading goes on after it. -/
theorem stmts_keyword (eof : Span) {token : Token String} {word : Kind.Keyword} (rest : Tokens)
    (h : token.kind.keyword? = some word) :
    stmts eof (token :: rest)
      = (stmt eof word token.span rest).andThen fun s tokens =>
        (stmts eof tokens).andThen fun ss tokens => ⟨s :: ss, tokens, []⟩ := by
  conv => lhs; rw [stmts, stmtsFrom_keyword eof _ _ rest h]
  simp only [stmtsFrom_acc]
  simp [Parsed.andThen, stmts]

/-- A token that starts no statement is reported and skipped. -/
theorem stmts_skip (eof : Span) {token : Token String} (rest : Tokens)
    (h : token.kind.keyword? = none) :
    stmts eof (token :: rest)
      = (Parsed.mk () rest [unexpected eof .statement .program (token :: rest)]).andThen
        fun _ tokens => stmts eof tokens := by
  conv => lhs; rw [stmts, stmtsFrom_skip eof _ _ rest h]
  simp only [stmtsFrom_acc]
  simp [Parsed.andThen, stmts]

/-- What holds of the end of the file, of a statement before others, and of a skipped token before
others holds of all sources. -/
theorem stmts_induction (eof : Span) {P : Tokens → Parsed (List (Stmt String)) → Prop}
    (nil : P [] ⟨[], [], []⟩)
    (keyword : ∀ token word rest, token.kind.keyword? = some word →
      P (stmt eof word token.span rest).rest (stmts eof (stmt eof word token.span rest).rest) →
      P (token :: rest) ((stmt eof word token.span rest).andThen fun s tokens =>
        (stmts eof tokens).andThen fun ss tokens => ⟨s :: ss, tokens, []⟩))
    (skip : ∀ token rest, token.kind.keyword? = none → P rest (stmts eof rest) →
      P (token :: rest)
        ((Parsed.mk () rest [unexpected eof .statement .program (token :: rest)]).andThen
          fun _ tokens => stmts eof tokens))
    (tokens : Tokens) : P tokens (stmts eof tokens) := by
  induction hlength : tokens.length using Nat.strongRecOn generalizing tokens with
  | _ length ih =>
    subst hlength
    cases tokens with
    | nil => exact stmts_nil eof ▸ nil
    | cons token rest =>
      cases hword : token.kind.keyword? with
      | some word =>
        rw [stmts_keyword eof rest hword]
        refine keyword token word rest hword (ih _ ?_ _ rfl)
        exact Nat.lt_succ_of_le (stmt_rest_suffix eof word token.span rest).length_le
      | none =>
        rw [stmts_skip eof rest hword]
        exact skip token rest hword (ih _ (Nat.lt_succ_self _) _ rfl)

/-- Statements are read to the end of the file. -/
theorem stmts_rest (eof : Span) (tokens : Tokens) : (stmts eof tokens).rest = [] := by
  refine stmts_induction eof (P := fun _ parsed => parsed.rest = []) ?nil ?keyword ?skip tokens
  case nil => rfl
  case keyword =>
    intro token word rest _ ih
    exact ih
  case skip =>
    intro token rest _ ih
    exact ih

theorem program_rest (path : Option String) (eof : Span) (tokens : Tokens) :
    (program path eof tokens).rest = [] := stmts_rest eof tokens

end Parse

end LetCalc
