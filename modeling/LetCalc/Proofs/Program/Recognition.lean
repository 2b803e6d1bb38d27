import LetCalc.Proofs.Program.Grammar
import LetCalc.Proofs.Program.Reading

/-!
# The parser and the grammar

What the parser reads without a finding is derived from the grammar, and what the grammar derives
is read without a finding exactly if there is room for it.  Together they leave one tree for each
list of tokens.

Main results:

- Theorem `expression_sound`: an expression read without a finding is derived.
- Theorem `derivation_reads`: a derivation is read with the room that it demands, and less room is
  reported.
- Theorem `stmts_sound`: statements read without a finding are derived.
- Theorem `stmts_clean_iff`: a derived program is read without a finding exactly if there is room
  for every statement.
-/

namespace LetCalc

open Grammar

namespace Kind

variable {ι : Type} {kind : Kind ι}

theorem lead_eq_number {v : UInt64} : kind.lead = .number v ↔ kind = .int v := by
  cases kind <;> simp [lead]

theorem lead_eq_name {x : ι} : kind.lead = .name x ↔ kind = .identifier x := by
  cases kind <;> simp [lead]

theorem lead_eq_group : kind.lead = .group ↔ kind = .leftParen := by
  cases kind <;> simp [lead]

theorem lead_eq_sign {op : UnOp} :
    kind.lead = .sign op ↔ kind = .plus ∧ op = .plus ∨ kind = .minus ∧ op = .minus := by
  cases kind <;> simp [lead, eq_comm]

theorem keyword?_eq_bind : kind.keyword? = some .bind ↔ kind = .keywordLet := by
  cases kind <;> simp [keyword?]

theorem keyword?_eq_print : kind.keyword? = some .print ↔ kind = .keywordPrint := by
  cases kind <;> simp [keyword?]

end Kind

namespace Parse

/-! ## What is read is derived -/

/-- The stratum of the expressions whose operators bind tighter than `floor`. -/
def stratum : Prec → Nonterminal
  | .bottom => .expr
  | .additive => .term
  | .multiplicative | .unary => .unary

/-- A left operand that is derived as the operators in view may need it.  Under a sum no product is
left to fold, since the right operand of the sum has taken them all. -/
def Ready (floor : Prec) (ks : List (Kind String)) (t : ExprTree String) (tokens : Tokens) : Prop :=
  match floor with
  | .bottom =>
    Nonempty (Derivation .term ks t) ∨ Nonempty (Derivation .expr ks t) ∧ Stops .additive tokens
  | .additive => Nonempty (Derivation .term ks t)
  | .multiplicative | .unary => Nonempty (Derivation .unary ks t)

/-- A signed operand or a primary is ready under every floor. -/
theorem ready_of_unary {ks : List (Kind String)} {t : ExprTree String}
    (d : Derivation .unary ks t) (floor : Prec) (tokens : Tokens) : Ready floor ks t tokens := by
  cases floor with
  | bottom => exact Or.inl ⟨.ofUnary d⟩
  | additive => exact ⟨.ofUnary d⟩
  | multiplicative | unary => exact ⟨d⟩

/-- When folding stops, a ready operand is an expression of the stratum. -/
theorem Ready.derivation {floor : Prec} {ks : List (Kind String)} {t : ExprTree String}
    {tokens : Tokens} (h : Ready floor ks t tokens) :
    Nonempty (Derivation (stratum floor) ks t) := by
  cases floor with
  | bottom =>
    rcases h with ⟨⟨d⟩⟩ | ⟨h, -⟩
    · exact ⟨.ofTerm d⟩
    · exact h
  | additive | multiplicative | unary => exact h

/-- A ready operand with the operator in view and its right operand is ready again. -/
theorem Ready.operator {floor : Prec} {ks ks' : List (Kind String)} {l r : ExprTree String}
    {token : Token String} {op : BinOp} {rest rest' : Tokens}
    (h : Ready floor ks l (token :: rest)) (hop : token.kind.binOp? = some op)
    (hprec : floor < op.prec) (hright : Nonempty (Derivation (stratum op.prec) ks' r))
    (hstop : Stops op.prec rest') :
    Ready floor (ks ++ token.kind :: ks') (.binary op l r) rest' := by
  rcases hright with ⟨right⟩
  -- A product is folded onto a term: after a sum its operator would not be in view.
  have hterm : op.prec = .multiplicative → Nonempty (Derivation .term ks l) := by
    intro hmul
    cases floor with
    | bottom =>
      rcases h with h | ⟨-, hadd⟩
      · exact h
      · have hnot := stops_cons.1 hadd op hop
        rw [hmul] at hnot
        exact absurd (by decide) hnot
    | additive => exact h
    | multiplicative | unary =>
      rw [hmul] at hprec
      exact absurd hprec (by decide)
  have hexpr : floor = .bottom → Nonempty (Derivation .expr ks l) := by
    rintro rfl
    exact h.derivation
  cases hkind : token.kind <;> simp only [hkind, Kind.binOp?] at hop <;> cases hop
  case plus =>
    cases floor with
    | bottom =>
      rcases hexpr rfl with ⟨left⟩
      exact Or.inr ⟨⟨.add left right⟩, hstop⟩
    | additive | multiplicative | unary => exact absurd hprec (by decide)
  case minus =>
    cases floor with
    | bottom =>
      rcases hexpr rfl with ⟨left⟩
      exact Or.inr ⟨⟨.sub left right⟩, hstop⟩
    | additive | multiplicative | unary => exact absurd hprec (by decide)
  case star =>
    rcases hterm rfl with ⟨left⟩
    cases floor with
    | bottom => exact Or.inl ⟨.mul left right⟩
    | additive => exact ⟨.mul left right⟩
    | multiplicative | unary => exact absurd hprec (by decide)
  case slash =>
    rcases hterm rfl with ⟨left⟩
    cases floor with
    | bottom => exact Or.inl ⟨.div left right⟩
    | additive => exact ⟨.div left right⟩
    | multiplicative | unary => exact absurd hprec (by decide)

/-- The tokens that were read, after those of kinds `ks`, are derived from the nonterminal, and the
result is the tree of the derivation. -/
def Derived (nt : Nonterminal) (ks : List (Kind String)) (tokens : Tokens)
    (parsed : Parsed (Expr String)) : Prop :=
  ∃ used, tokens = used ++ parsed.rest ∧
    Nonempty (Derivation nt (ks ++ used.kinds) parsed.value.tree)

/-- Tokens that were read earlier may be counted among those that are read now. -/
theorem Derived.after {nt : Nonterminal} {ks : List (Kind String)} {used mid tokens : Tokens}
    {parsed : Parsed (Expr String)} (h : Derived nt (ks ++ used.kinds) mid parsed)
    (htokens : tokens = used ++ mid) : Derived nt ks tokens parsed := by
  rcases h with ⟨more, hmid, hderivation⟩
  refine ⟨used ++ more, by rw [htokens, List.append_assoc, ← hmid], ?_⟩
  rwa [Tokens.kinds_append, ← List.append_assoc]

/-- A sign in front of what is derived as an operand. -/
theorem Derived.sign {token : Token String} {op : UnOp} {rest : Tokens}
    {parsed : Parsed (Expr String)} (h : Derived .unary [] rest parsed)
    (hlead : token.kind.lead = .sign op) :
    Derived .unary [] (token :: rest) ⟨.unary token.span op parsed.value, parsed.rest, []⟩ := by
  rcases h with ⟨used, hrest, ⟨d⟩⟩
  refine ⟨token :: used, by simp [hrest], ?_⟩
  rcases Kind.lead_eq_sign.1 hlead with ⟨hkind, rfl⟩ | ⟨hkind, rfl⟩
  · rw [Tokens.kinds_cons, hkind]
    exact ⟨.plus d⟩
  · rw [Tokens.kinds_cons, hkind]
    exact ⟨.minus d⟩

/-- Parentheses around what is derived as an expression. -/
theorem Derived.group {token close : Token String} {rest after : Tokens}
    {parsed : Parsed (Expr String)} (h : Derived .expr [] rest parsed)
    (hopen : token.kind = .leftParen) (hclose : close.kind = .rightParen)
    (hrest : parsed.rest = close :: after) :
    Derived .unary [] (token :: rest) ⟨parsed.value, after, []⟩ := by
  rcases h with ⟨used, hused, ⟨d⟩⟩
  refine ⟨token :: (used ++ [close]), by simp [hused, hrest], ?_⟩
  rw [Tokens.kinds_cons, Tokens.kinds_append, Tokens.kinds_cons, hopen, hclose]
  exact ⟨.ofPrimary (.group d)⟩

private theorem operand_fold_expression_sound (eof : Span) :
    (∀ room goal tokens, (operand eof room goal tokens).findings = [] →
        Derived .unary [] tokens (operand eof room goal tokens)) ∧
      (∀ room floor left tokens, (fold eof room floor left tokens).findings = [] →
        ∀ ks, Ready floor ks left.tree tokens →
          Derived (stratum floor) ks tokens (fold eof room floor left tokens) ∧
            Stops floor (fold eof room floor left tokens).rest) ∧
      ∀ room floor goal tokens, (expression eof room floor goal tokens).findings = [] →
        Derived (stratum floor) [] tokens (expression eof room floor goal tokens) ∧
          Stops floor (expression eof room floor goal tokens).rest := by
  refine reading_induction eof
    (P := fun _ _ tokens parsed => parsed.findings = [] → Derived .unary [] tokens parsed)
    (Q := fun _ floor left tokens parsed => parsed.findings = [] →
      ∀ ks, Ready floor ks left.tree tokens →
        Derived (stratum floor) ks tokens parsed ∧ Stops floor parsed.rest)
    (R := fun _ floor _ tokens parsed => parsed.findings = [] →
      Derived (stratum floor) [] tokens parsed ∧ Stops floor parsed.rest)
    ?nothing ?number ?name ?sign ?group ?full ?stop ?operator ?fullFold ?whole
  case nothing =>
    intro room goal tokens _ hclean
    cases hclean
  case number =>
    intro room goal token v rest hlead _
    refine ⟨[token], rfl, ?_⟩
    rw [Tokens.kinds_cons, Kind.lead_eq_number.1 hlead]
    exact ⟨.ofPrimary (.int v)⟩
  case name =>
    intro room goal token x rest hlead _
    refine ⟨[token], rfl, ?_⟩
    rw [Tokens.kinds_cons, Kind.lead_eq_name.1 hlead]
    exact ⟨.ofPrimary (.name x)⟩
  case sign =>
    intro room goal token op rest hlead ih hclean
    have hinner := ih (List.append_eq_nil_iff.1 hclean).1
    exact hinner.1.sign hlead
  case group =>
    intro room goal token rest hlead ih hclean
    rcases List.append_eq_nil_iff.1 hclean with ⟨hinner, hexpect⟩
    rcases expect_clean (List.append_eq_nil_iff.1 hexpect).1 with ⟨close, hclose, hrest⟩
    exact (ih hinner).1.group (Kind.lead_eq_group.1 hlead) hclose hrest
  case full =>
    intro goal token rest _ hclean
    cases hclean
  case stop =>
    intro room floor left tokens hstop _ ks hready
    refine ⟨⟨[], rfl, ?_⟩, hstop⟩
    simpa using hready.derivation
  case operator =>
    intro room floor left token op rest hop hprec ihRight ihFold hclean ks hready
    rcases List.append_eq_nil_iff.1 hclean with ⟨hright, hmore⟩
    rcases ihRight hright with ⟨⟨used, hused, hderived⟩, hstop⟩
    have hagain := hready.operator hop hprec hderived hstop
    rcases ihFold _ _ hmore (ks ++ Tokens.kinds (token :: used)) hagain with ⟨hresult, hend⟩
    exact ⟨hresult.after (congrArg (token :: ·) hused), hend⟩
  case fullFold =>
    intro floor left token op rest _ _ hclean
    cases hclean
  case whole =>
    intro room floor goal tokens ihOperand ihFold hclean
    rcases List.append_eq_nil_iff.1 hclean with ⟨hfirst, hfold⟩
    rcases ihOperand hfirst with ⟨used, hused, ⟨d⟩⟩
    rcases ihFold _ _ hfold _ (ready_of_unary d floor _) with ⟨hresult, hend⟩
    exact ⟨hresult.after hused, hend⟩

/-- An expression that is read without a finding is derived. -/
theorem expression_sound {eof : Span} {room : Nat} {goal : Goal} {tokens : Tokens}
    (h : (expression eof room .bottom goal tokens).findings = []) :
    Derived .expr [] tokens (expression eof room .bottom goal tokens) :=
  ((operand_fold_expression_sound eof).2.2 room .bottom goal tokens h).1

/-! ## What is derived is read -/

/-- An expression was given up for lack of room. -/
def TooDeep (findings : List Finding) : Prop := ∃ f ∈ findings, f.problem = .tooDeep

theorem tooDeep_append {xs ys : List Finding} : TooDeep (xs ++ ys) ↔ TooDeep xs ∨ TooDeep ys := by
  simp only [TooDeep, List.mem_append, or_and_right, exists_or]

theorem not_tooDeep_nil : ¬ TooDeep [] := by
  rintro ⟨f, hf, -⟩
  cases hf

theorem tooDeep_giveUp (eof : Span) (tokens : Tokens) : TooDeep (giveUp eof tokens).findings :=
  ⟨_, List.mem_singleton_self _, rfl⟩

section Exact

variable (eof : Span)

/-- Tokens of kinds `ks` in front of `rest` are read as an operand with tree `t`, given the room;
too little room is reported. -/
def ReadsOperand (ks : List (Kind String)) (t : ExprTree String) (demand : Nat)
    (rest : Tokens) : Prop :=
  ∀ room goal (used : Tokens), used.kinds = ks →
    (demand ≤ room → ∃ e, e.tree = t ∧ operand eof room goal (used ++ rest) = ⟨e, rest, []⟩) ∧
    (room < demand → TooDeep (operand eof room goal (used ++ rest)).findings)

/-- Tokens of kinds `ks` in front of `rest` are read as a whole expression with tree `t`. -/
def ReadsWhole (floor : Prec) (ks : List (Kind String)) (t : ExprTree String) (demand : Nat)
    (rest : Tokens) : Prop :=
  ∀ room goal (used : Tokens), used.kinds = ks →
    (demand ≤ room →
      ∃ e, e.tree = t ∧ expression eof room floor goal (used ++ rest) = ⟨e, rest, []⟩) ∧
    (room < demand → TooDeep (expression eof room floor goal (used ++ rest)).findings)

/-- Reading an expression from tokens of kinds `ks` comes down to folding what follows onto the
tree `t`, with a level used up for each of `folds` operators. -/
def ReadsChain (floor : Prec) (ks : List (Kind String)) (t : ExprTree String)
    (folds demand : Nat) (rest : Tokens) : Prop :=
  ∀ room goal (used : Tokens), used.kinds = ks →
    (demand ≤ room → ∃ e, e.tree = t ∧
      expression eof room floor goal (used ++ rest) = fold eof (room - folds) floor e rest) ∧
    (room < demand → TooDeep (expression eof room floor goal (used ++ rest)).findings)

variable {eof}
variable {floor : Prec} {ks ks' : List (Kind String)} {t l r : ExprTree String}
  {folds demand demand' : Nat} {rest : Tokens}

/-- An operand is a chain without operators. -/
theorem ReadsOperand.chain (h : ReadsOperand eof ks t demand rest) (floor : Prec) :
    ReadsChain eof floor ks t 0 demand rest := by
  intro room goal used hused
  rcases h room goal used hused with ⟨hfits, hlacks⟩
  constructor
  · intro hroom
    rcases hfits hroom with ⟨e, htree, hread⟩
    refine ⟨e, htree, ?_⟩
    rw [expression, hread]
    rfl
  · intro hroom
    exact tooDeep_append.2 (Or.inl (hlacks hroom))

/-- A chain with nothing left to fold is a whole expression. -/
theorem ReadsChain.whole (h : ReadsChain eof floor ks t folds demand rest)
    (hstop : Stops floor rest) : ReadsWhole eof floor ks t demand rest := by
  intro room goal used hused
  rcases h room goal used hused with ⟨hfits, hlacks⟩
  refine ⟨?_, hlacks⟩
  intro hroom
  rcases hfits hroom with ⟨e, htree, hread⟩
  exact ⟨e, htree, hread.trans (fold_stop eof _ floor e hstop)⟩

/-- An operator and its right operand make a chain longer by one. -/
theorem ReadsChain.operator {kind : Kind String} {op : BinOp}
    (hleft : ∀ (token : Token String) (tail : Tokens), token.kind = kind →
      ReadsChain eof floor ks l folds demand (token :: tail))
    (hright : ReadsWhole eof op.prec ks' r demand' rest)
    (hop : kind.binOp? = some op) (hprec : floor < op.prec) :
    ReadsChain eof floor (ks ++ kind :: ks') (.binary op l r) (folds + 1)
      (max demand (folds + 1 + demand')) rest := by
  intro room goal used hused
  rcases Tokens.kinds_eq_append hused with ⟨front, back, rfl, hfront, hback⟩
  rcases Tokens.kinds_eq_cons hback with ⟨token, tail, rfl, hkind, htail⟩
  rw [← hkind] at hop
  rcases hleft token (tail ++ rest) hkind room goal front hfront with ⟨hfits, hlacks⟩
  rw [List.append_assoc, List.cons_append]
  constructor
  · intro hroom
    rcases hfits (by omega) with ⟨e, hel, hread⟩
    have hless : room - folds = room - (folds + 1) + 1 := by omega
    obtain ⟨e', her, hread'⟩ := (hright (room - (folds + 1)) .rightOperand tail htail).1 (by omega)
    refine ⟨.binary e.span op e e', by rw [Expr.tree, hel, her], ?_⟩
    rw [hread, hless, fold_operator eof _ _ e hop hprec, hread', Parsed.mk_andThen]
  · intro hroom
    by_cases hdemand : room < demand
    · exact hlacks hdemand
    · rcases hfits (by omega) with ⟨e, -, hread⟩
      rw [hread]
      -- Either no level is left for the operator, or too few are left for its right operand.
      cases hless : room - folds with
      | zero =>
        rw [fold_full eof _ e hop hprec]
        exact tooDeep_giveUp eof _
      | succ less =>
        rw [fold_operator eof less _ e hop hprec]
        refine tooDeep_append.2 (Or.inl ?_)
        exact (hright less .rightOperand tail htail).2 (by omega)

/-- A sign in front of an operand. -/
theorem ReadsOperand.sign {kind : Kind String} {op : UnOp}
    (h : ReadsOperand eof ks t demand rest) (hlead : kind.lead = .sign op) :
    ReadsOperand eof (kind :: ks) (.unary op t) (1 + demand) rest := by
  intro room goal used hused
  rcases Tokens.kinds_eq_cons hused with ⟨token, tail, rfl, hkind, htail⟩
  rw [← hkind] at hlead
  have hwhole := (h.chain .unary).whole (stops_of_not_lt (by decide) rest)
  cases room with
  | zero =>
    refine ⟨by omega, ?_⟩
    intro _
    rw [List.cons_append, operand_full eof goal _ (Or.inr ⟨op, hlead⟩)]
    exact tooDeep_giveUp eof _
  | succ room =>
    rcases hwhole room .signedOperand tail htail with ⟨hfits, hlacks⟩
    rw [List.cons_append, operand_sign eof room goal _ hlead]
    constructor
    · intro hroom
      rcases hfits (by omega) with ⟨e, htree, hread⟩
      refine ⟨.unary token.span op e, by rw [Expr.tree, htree], ?_⟩
      rw [hread, Parsed.mk_andThen]
    · intro hroom
      exact tooDeep_append.2 (Or.inl (hlacks (by omega)))

/-- Parentheses around an expression. -/
theorem ReadsWhole.group
    (h : ∀ (close : Token String), close.kind = .rightParen →
      ReadsWhole eof .bottom ks t demand (close :: rest)) :
    ReadsOperand eof (.leftParen :: (ks ++ [.rightParen])) t (1 + demand) rest := by
  intro room goal used hused
  rcases Tokens.kinds_eq_cons hused with ⟨token, inner, rfl, hkind, hinner⟩
  rcases Tokens.kinds_eq_append hinner with ⟨tail, back, rfl, htail, hback⟩
  rcases Tokens.kinds_eq_singleton hback with ⟨close, rfl, hclose⟩
  have hlead : token.kind.lead = .group := Kind.lead_eq_group.2 hkind
  rw [List.cons_append, List.append_assoc, List.singleton_append]
  cases room with
  | zero =>
    refine ⟨by omega, ?_⟩
    intro _
    rw [operand_full eof goal _ (Or.inl hlead)]
    exact tooDeep_giveUp eof _
  | succ room =>
    rcases h close hclose room .group tail htail with ⟨hfits, hlacks⟩
    rw [operand_group eof room goal _ hlead]
    constructor
    · intro hroom
      rcases hfits (by omega) with ⟨e, htree, hread⟩
      refine ⟨e, htree, ?_⟩
      rw [hread, Parsed.mk_andThen, expect_of_kind eof .group rest hclose, Parsed.mk_andThen]
    · intro hroom
      exact tooDeep_append.2 (Or.inl (hlacks (by omega)))

end Exact

/-- How the tokens of a derivation are read, by stratum.  An expression may be followed by anything
but an operator of a product, which its last term would take. -/
def Reads (eof : Span) (nt : Nonterminal) (ks : List (Kind String)) (t : ExprTree String)
    (folds demand : Nat) : Prop :=
  match nt with
  | .expr => ∀ rest, Stops .additive rest → ReadsChain eof .bottom ks t folds demand rest
  | .term => ∀ floor < Prec.multiplicative, ∀ rest, ReadsChain eof floor ks t folds demand rest
  | .unary | .primary => ∀ rest, ReadsOperand eof ks t demand rest

/-- A derivation is read with the room that it demands, and too little room is reported. -/
theorem derivation_reads (eof : Span) {nt : Nonterminal} {ks : List (Kind String)}
    {t : ExprTree String} (d : Derivation nt ks t) : Reads eof nt ks t d.folds d.demand := by
  -- The right operand of a sum is a whole term, that of a product an operand.
  have sum : ∀ {kind op ks ks' l r} {left : Derivation .expr ks l} {right : Derivation .term ks' r},
      Reads eof .expr ks l left.folds left.demand → Reads eof .term ks' r right.folds right.demand →
      kind.binOp? = some op → op.prec = .additive →
      Reads eof .expr (ks ++ kind :: ks') (.binary op l r) (left.folds + 1)
        (max left.demand (left.folds + 1 + right.demand)) := by
    intro kind op ks ks' l r left right ihl ihr hop hprec rest hstop
    refine ReadsChain.operator ?_ ?_ hop (by rw [hprec]; decide)
    · intro token tail hkind
      refine ihl _ (stops_cons.2 ?_)
      intro op' hop'
      rw [hkind, hop] at hop'
      cases hop'
      rw [hprec]
      decide
    · rw [hprec]
      exact (ihr .additive (by decide) rest).whole hstop
  have product : ∀ {kind op ks ks' l r} {left : Derivation .term ks l}
      {right : Derivation .unary ks' r},
      Reads eof .term ks l left.folds left.demand →
      Reads eof .unary ks' r right.folds right.demand →
      kind.binOp? = some op → op.prec = .multiplicative →
      Reads eof .term (ks ++ kind :: ks') (.binary op l r) (left.folds + 1)
        (max left.demand (left.folds + 1 + right.demand)) := by
    intro kind op ks ks' l r left right ihl ihr hop hprec floor hfloor rest
    refine ReadsChain.operator ?_ ?_ hop (by rwa [hprec])
    · intro token tail _
      exact ihl floor hfloor _
    · rw [hprec]
      exact ((ihr rest).chain .multiplicative).whole (stops_of_not_lt (by decide) rest)
  induction d with
  | add left right ihl ihr | sub left right ihl ihr => exact sum ihl ihr rfl rfl
  | mul left right ihl ihr | div left right ihl ihr => exact product ihl ihr rfl rfl
  | ofTerm term ih =>
    intro rest _
    exact ih .bottom (by decide) rest
  | ofUnary unary ih =>
    intro floor _ rest
    exact (ih rest).chain floor
  | plus operand ih | minus operand ih =>
    intro rest
    exact (ih rest).sign rfl
  | ofPrimary primary ih => exact ih
  | int v =>
    intro rest room goal used hused
    rcases Tokens.kinds_eq_singleton hused with ⟨token, rfl, hkind⟩
    refine ⟨fun _ => ⟨.lit token.span v, rfl, ?_⟩, fun hroom => absurd hroom (Nat.not_lt_zero _)⟩
    exact operand_number eof room goal rest (Kind.lead_eq_number.2 hkind)
  | name x =>
    intro rest room goal used hused
    rcases Tokens.kinds_eq_singleton hused with ⟨token, rfl, hkind⟩
    refine ⟨fun _ => ⟨.var token.span x, rfl, ?_⟩, fun hroom => absurd hroom (Nat.not_lt_zero _)⟩
    exact operand_name eof room goal rest (Kind.lead_eq_name.2 hkind)
  | group inner ih =>
    intro rest
    refine ReadsWhole.group ?_
    intro close hclose
    have hstop : ∀ floor, Stops floor (close :: rest) :=
      fun floor => stops_of_binOp?_eq_none (by rw [hclose]; rfl) floor rest
    exact (ih _ (hstop .additive)).whole (hstop .bottom)

/-- A derived expression in front of a semicolon is read as a whole. -/
theorem derivation_readsWhole (eof : Span) {ks : List (Kind String)} {t : ExprTree String}
    (d : Derivation .expr ks t) {close : Token String} (hclose : close.kind = .semicolon)
    (rest : Tokens) : ReadsWhole eof .bottom ks t d.demand (close :: rest) := by
  have hstop : ∀ floor, Stops floor (close :: rest) :=
    fun floor => stops_of_binOp?_eq_none (by rw [hclose]; rfl) floor rest
  exact (derivation_reads eof d _ (hstop .additive)).whole (hstop .bottom)

/-! ## Statements -/

/-- Only a name is read without a finding as the name that a statement binds. -/
theorem boundName_clean {eof : Span} {tokens : Tokens} (h : (boundName eof tokens).findings = []) :
    ∃ token, token.kind = .identifier (boundName eof tokens).value ∧
      tokens = token :: (boundName eof tokens).rest := by
  unfold boundName at h ⊢
  split at h
  · cases h
  · next token rest =>
    split at h
    · next x hlead => exact ⟨token, by rw [Kind.lead_eq_name.1 hlead], rfl⟩
    · cases h

theorem boundName_of_kind (eof : Span) {token : Token String} {x : String} (rest : Tokens)
    (h : token.kind = .identifier x) : boundName eof (token :: rest) = ⟨x, rest, []⟩ := by
  simp [boundName, Kind.lead_eq_name.2 h]

/-- A statement that is read without a finding is derived, its keyword included. -/
theorem stmt_sound {eof : Span} {token : Token String} {word : Kind.Keyword} {rest : Tokens}
    (hword : token.kind.keyword? = some word)
    (h : (stmt eof word token.span rest).findings = []) :
    ∃ used : Tokens, token :: rest = used ++ (stmt eof word token.span rest).rest ∧
      Nonempty (StmtDerivation used.kinds (stmt eof word token.span rest).value.tree) := by
  cases word with
  | bind =>
    rcases List.append_eq_nil_iff.1 h with ⟨hname, h⟩
    rcases List.append_eq_nil_iff.1 h with ⟨hequal, h⟩
    rcases List.append_eq_nil_iff.1 h with ⟨hvalue, h⟩
    rcases List.append_eq_nil_iff.1 h with ⟨hclose, -⟩
    rcases boundName_clean hname with ⟨name, hnameKind, hrest⟩
    rcases expect_clean hequal with ⟨equal, hequalKind, hrest'⟩
    rcases expression_sound hvalue with ⟨used, hused, ⟨d⟩⟩
    rcases expect_clean hclose with ⟨close, hcloseKind, hrest''⟩
    have htail := hrest'.trans (congrArg (equal :: ·) (hused.trans (congrArg (used ++ ·) hrest'')))
    refine ⟨token :: name :: equal :: (used ++ [close]), ?_, ?_⟩
    · simp only [List.cons_append, List.append_assoc, List.nil_append]
      exact congrArg (token :: ·) (hrest.trans (congrArg (name :: ·) htail))
    · simp only [Tokens.kinds_cons, Tokens.kinds_append, Tokens.kinds_nil, hnameKind, hequalKind,
        hcloseKind, Kind.keyword?_eq_bind.1 hword]
      exact ⟨.bind _ d⟩
  | print =>
    rcases List.append_eq_nil_iff.1 h with ⟨hvalue, h⟩
    rcases List.append_eq_nil_iff.1 h with ⟨hclose, -⟩
    rcases expression_sound hvalue with ⟨used, hused, ⟨d⟩⟩
    rcases expect_clean hclose with ⟨close, hcloseKind, hrest⟩
    refine ⟨token :: (used ++ [close]), ?_, ?_⟩
    · simp only [List.cons_append, List.append_assoc, List.nil_append]
      exact congrArg (token :: ·) (hused.trans (congrArg (used ++ ·) hrest))
    · simp only [Tokens.kinds_cons, Tokens.kinds_append, Tokens.kinds_nil, hcloseKind,
        Kind.keyword?_eq_print.1 hword]
      exact ⟨.print d⟩

/-- The tokens `used` in front of `rest` are read as a statement with tree `s`, given the room; too
little room is reported. -/
def ReadsStmt (eof : Span) (s : StmtTree String) (demand : Nat) (used rest : Tokens) : Prop :=
  ∃ token tail word, used = token :: tail ∧ token.kind.keyword? = some word ∧
    (demand ≤ maxDepth →
      ∃ st, st.tree = s ∧ stmt eof word token.span (tail ++ rest) = ⟨st, rest, []⟩) ∧
    (maxDepth < demand → TooDeep (stmt eof word token.span (tail ++ rest)).findings)

/-- A derived statement is read with the room that it demands, and too little room is reported. -/
theorem stmtDerivation_reads (eof : Span) {ks : List (Kind String)} {s : StmtTree String}
    (d : StmtDerivation ks s) {used : Tokens} (hused : used.kinds = ks) (rest : Tokens) :
    ReadsStmt eof s d.demand used rest := by
  cases d with
  | bind x value =>
    rcases Tokens.kinds_eq_cons hused with ⟨token, tail, rfl, hkind, htail⟩
    rcases Tokens.kinds_eq_cons htail with ⟨name, tail, rfl, hname, htail⟩
    rcases Tokens.kinds_eq_cons htail with ⟨equal, tail, rfl, hequal, htail⟩
    rcases Tokens.kinds_eq_append htail with ⟨front, back, rfl, hfront, hback⟩
    rcases Tokens.kinds_eq_singleton hback with ⟨close, rfl, hclose⟩
    refine ⟨token, _, .bind, rfl, Kind.keyword?_eq_bind.2 hkind, ?_⟩
    obtain ⟨hfits, hlacks⟩ :=
      derivation_readsWhole eof value hclose rest maxDepth .initializer front hfront
    simp only [stmt, bindStmt, List.cons_append, List.append_assoc, List.nil_append,
      boundName_of_kind eof _ hname, expect_of_kind eof _ _ hequal, Parsed.mk_andThen]
    constructor
    · intro hroom
      rcases hfits hroom with ⟨e, htree, hread⟩
      refine ⟨.bind token.span x e, by rw [Stmt.tree, htree], ?_⟩
      rw [hread, Parsed.mk_andThen, expect_of_kind eof _ _ hclose, Parsed.mk_andThen]
    · intro hroom
      exact tooDeep_append.2 (Or.inl (hlacks hroom))
  | print value =>
    rcases Tokens.kinds_eq_cons hused with ⟨token, tail, rfl, hkind, htail⟩
    rcases Tokens.kinds_eq_append htail with ⟨front, back, rfl, hfront, hback⟩
    rcases Tokens.kinds_eq_singleton hback with ⟨close, rfl, hclose⟩
    refine ⟨token, _, .print, rfl, Kind.keyword?_eq_print.2 hkind, ?_⟩
    obtain ⟨hfits, hlacks⟩ :=
      derivation_readsWhole eof value hclose rest maxDepth .printStatement front hfront
    simp only [stmt, printStmt, List.append_assoc, List.cons_append, List.nil_append]
    constructor
    · intro hroom
      rcases hfits hroom with ⟨e, htree, hread⟩
      refine ⟨.print token.span e, by rw [Stmt.tree, htree], ?_⟩
      rw [hread, Parsed.mk_andThen, expect_of_kind eof _ _ hclose, Parsed.mk_andThen]
    · intro hroom
      exact tooDeep_append.2 (Or.inl (hlacks hroom))

/-! ## Programs -/

/-- Statements that are read without a finding are derived. -/
theorem stmts_sound (eof : Span) (tokens : Tokens) :
    (stmts eof tokens).findings = [] →
      Nonempty (ProgramDerivation tokens.kinds ((stmts eof tokens).value.map Stmt.tree)) := by
  refine stmts_induction eof
    (P := fun tokens parsed => parsed.findings = [] →
      Nonempty (ProgramDerivation tokens.kinds (parsed.value.map Stmt.tree)))
    ?nil ?keyword ?skip tokens
  case nil =>
    intro _
    exact ⟨.nil⟩
  case keyword =>
    intro token word rest hword ih hclean
    rcases List.append_eq_nil_iff.1 hclean with ⟨hstmt, hmore⟩
    rcases stmt_sound hword hstmt with ⟨used, hused, ⟨d⟩⟩
    rcases ih (List.append_eq_nil_iff.1 hmore).1 with ⟨more⟩
    rw [hused, Tokens.kinds_append]
    exact ⟨.cons d more⟩
  case skip =>
    intro token rest _ _ hclean
    cases hclean

/-- A derived program is read without a finding if there is room for every statement. -/
theorem stmts_of_demands_le (eof : Span) {ks : List (Kind String)} {ss : List (StmtTree String)}
    (d : ProgramDerivation ks ss) {tokens : Tokens} (htokens : tokens.kinds = ks)
    (hroom : ∀ n ∈ d.demands, n ≤ maxDepth) :
    (stmts eof tokens).findings = [] ∧ (stmts eof tokens).value.map Stmt.tree = ss := by
  induction d generalizing tokens with
  | nil =>
    cases List.map_eq_nil_iff.1 htokens
    rw [stmts_nil]
    exact ⟨rfl, rfl⟩
  | cons stmt rest ih =>
    rcases Tokens.kinds_eq_append htokens with ⟨front, back, rfl, hfront, hback⟩
    rcases stmtDerivation_reads eof stmt hfront back with ⟨token, tail, word, rfl, hword, hfits, -⟩
    rcases hfits (hroom _ (List.mem_cons_self ..)) with ⟨st, htree, hread⟩
    rcases ih hback fun n hn => hroom n (List.mem_cons_of_mem _ hn) with ⟨hclean, htrees⟩
    rw [List.cons_append, stmts_keyword eof _ hword, hread, Parsed.mk_andThen]
    simp [hclean, htrees, htree]

/-- A derived program is reported if there is a statement for which there is no room. -/
theorem tooDeep_of_lt_demand (eof : Span) {ks : List (Kind String)} {ss : List (StmtTree String)}
    (d : ProgramDerivation ks ss) {tokens : Tokens} (htokens : tokens.kinds = ks)
    (hroom : ∃ n ∈ d.demands, maxDepth < n) : TooDeep (stmts eof tokens).findings := by
  induction d generalizing tokens with
  | nil =>
    rcases hroom with ⟨n, hn, -⟩
    cases hn
  | cons stmt rest ih =>
    rcases Tokens.kinds_eq_append htokens with ⟨front, back, rfl, hfront, hback⟩
    obtain ⟨token, tail, word, rfl, hword, hfits, hlacks⟩ :=
      stmtDerivation_reads eof stmt hfront back
    rw [List.cons_append, stmts_keyword eof _ hword]
    by_cases hdemand : maxDepth < stmt.demand
    · exact tooDeep_append.2 (Or.inl (hlacks hdemand))
    · rcases hfits (Nat.le_of_not_lt hdemand) with ⟨st, -, hread⟩
      rw [hread, Parsed.mk_andThen]
      refine tooDeep_append.2 (Or.inl (ih hback ?_))
      rcases hroom with ⟨n, hn, hlt⟩
      rcases List.mem_cons.1 hn with rfl | hn
      · exact absurd hlt hdemand
      · exact ⟨n, hn, hlt⟩

/-- A derived program is read without a finding exactly if there is room for every statement. -/
theorem stmts_clean_iff (eof : Span) {ks : List (Kind String)} {ss : List (StmtTree String)}
    (d : ProgramDerivation ks ss) {tokens : Tokens} (htokens : tokens.kinds = ks) :
    (stmts eof tokens).findings = [] ↔ ∀ n ∈ d.demands, n ≤ maxDepth := by
  constructor
  · intro hclean n hn
    apply Nat.le_of_not_lt
    intro hlt
    have hdeep := tooDeep_of_lt_demand eof d htokens ⟨n, hn, hlt⟩
    rw [hclean] at hdeep
    exact not_tooDeep_nil hdeep
  · intro hroom
    exact (stmts_of_demands_le eof d htokens hroom).1

end Parse

end LetCalc
