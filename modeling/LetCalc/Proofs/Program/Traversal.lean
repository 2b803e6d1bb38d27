import LetCalc.Proofs.Program.Recovery
import LetCalc.Proofs.Program.States
import Mathlib.Data.List.Forall2

/-!
# Expressions and their tokens

An expression is read from tokens, and going through it in order gives these tokens back: numbers,
variables, signs before their operand and operators between their operands, all in the order of the
source.  Only the parentheses are missing, and nothing stands for a hole.  This holds however wrong
the source is, as long as no expression in it is nested too deeply.

Main results:

- Definition `Expr.inorder`: the way through an expression.
- Theorem `Parse.reading_traverses`: what is read is gone through as it was read.
- Theorem `Parse.expression_stops`: behind an expression no operator is left in view.
- Theorem `Context.expression_traverses_tokens`: the expression that a parser reads, and the tokens
  that it takes.
-/

namespace LetCalc

/-! ## Ways through expressions -/

/-- A stop on the way through an expression: the kind of the token that it was read from, and the
place of this token, if the expression keeps it. -/
structure Node where
  kind : Kind String
  span : Option Span
deriving DecidableEq, Repr

/-- The node was read from the token, and has its place if any. -/
def Node.StandsFor (node : Node) (token : Token String) : Prop :=
  node.kind = token.kind ∧ ∀ span ∈ node.span, span = token.span

namespace Expr

/-- The way through an expression: a sign before its operand, an operator between its operands, and
nothing for a hole.  An operator does not keep the place of its token. -/
def inorder : Expr String → List Node
  | lit span v => [⟨.int v, some span⟩]
  | var span x => [⟨.identifier x, some span⟩]
  | unary span op e => ⟨op.kind, some span⟩ :: inorder e
  | binary _ op l r => inorder l ++ ⟨op.kind, none⟩ :: inorder r
  | hole _ => []

/-- Whether every operator stands at the place of its left operand. -/
def isAnchored : Expr String → Bool
  | lit .. | var .. | hole _ => true
  | unary _ _ e => isAnchored e
  | binary span _ l r => span = l.span && isAnchored l && isAnchored r

end Expr

/-- Whether the token is a parenthesis. -/
def Kind.isParen {ι : Type} : Kind ι → Bool
  | leftParen | rightParen => true
  | _ => false

namespace Kind

theorem eq_kind_of_lead {kind : Kind String} {op : UnOp} (h : kind.lead = .sign op) :
    op.kind = kind := by
  cases kind <;> cases h <;> rfl

theorem eq_kind_of_binOp? {kind : Kind String} {op : BinOp} (h : kind.binOp? = some op) :
    op.kind = kind := by
  cases kind <;> cases h <;> rfl

end Kind

/-! ## What is taken -/

/-- The nodes are gone through as the tokens were read: one for each token that is no parenthesis,
and each parenthesis that closes a group has its own that opened it before. -/
structure Spelt (nodes : List Node) (used : Tokens) : Prop where
  standFor : List.Forall₂ Node.StandsFor nodes (used.filter fun token => !token.kind.isParen)
  opened : ∀ n, (Tokens.kinds (used.take n)).count .rightParen
    ≤ (Tokens.kinds (used.take n)).count .leftParen

namespace Spelt

variable {nodes nodes' : List Node} {used used' : Tokens}

theorem nil : Spelt [] [] := by
  refine ⟨.nil, ?_⟩
  intro n
  rw [List.take_nil]
  exact Nat.le_refl _

/-- A token that is no parenthesis. -/
theorem single {node : Node} {token : Token String} (h : node.StandsFor token)
    (hparen : token.kind.isParen = false) : Spelt [node] [token] := by
  constructor
  · simp [hparen, h]
  · intro n
    have hclose : token.kind ≠ .rightParen := by
      intro hkind
      rw [hkind] at hparen
      cases hparen
    cases n <;> simp [hclose]

theorem append (h : Spelt nodes used) (h' : Spelt nodes' used') :
    Spelt (nodes ++ nodes') (used ++ used') := by
  constructor
  · rw [List.filter_append]
    exact List.rel_append h.standFor h'.standFor
  · intro n
    rw [List.take_append, Tokens.kinds_append, List.count_append, List.count_append]
    exact Nat.add_le_add (h.opened n) (h'.opened (n - used.length))

/-- Parentheses around some tokens, the second of which may be missing, are not gone through. -/
theorem group (h : Spelt nodes used) {token : Token String} (htoken : token.kind = .leftParen)
    {close : Tokens} (hclose : ∀ token' ∈ close, token'.kind = .rightParen)
    (hlength : close.length ≤ 1) : Spelt nodes (token :: (used ++ close)) := by
  constructor
  · have hnone : close.filter (fun token => !token.kind.isParen) = [] := by
      rw [List.filter_eq_nil_iff]
      intro token' htoken'
      simp [hclose token' htoken', Kind.isParen]
    have hopen : (!token.kind.isParen) = false := by rw [htoken]; rfl
    rw [List.filter_cons, if_neg (by simp [hopen]), List.filter_append, hnone, List.append_nil]
    exact h.standFor
  · intro n
    cases n with
    | zero => simp
    | succ n =>
      have hused := h.opened n
      have hshort : (Tokens.kinds (close.take (n - used.length))).count .rightParen ≤ 1 := by
        refine List.count_le_length.trans ?_
        rw [Tokens.kinds, List.length_map, List.length_take]
        omega
      rw [List.take_succ_cons, List.take_append, Tokens.kinds_cons, Tokens.kinds_append, htoken]
      simp only [List.count_cons, List.count_append, beq_iff_eq]
      simp only [reduceCtorEq, if_false, if_true]
      omega

end Spelt

namespace Parse

/-! ## Readings -/

/-- What was read is gone through as its tokens were read, unless something is nested too deeply. -/
def Traverses (tokens : Tokens) (parsed : Parsed (Expr String)) : Prop :=
  ¬ TooDeep parsed.findings → parsed.value.isAnchored = true ∧
    ∃ used, tokens = used ++ parsed.rest ∧ Spelt parsed.value.inorder used

/-- What was folded onto a left operand is gone through as its tokens were read, after the left
operand. -/
def Continues (left : Expr String) (tokens : Tokens) (parsed : Parsed (Expr String)) : Prop :=
  ¬ TooDeep parsed.findings → left.isAnchored = true → parsed.value.isAnchored = true ∧
    ∃ nodes used, tokens = used ++ parsed.rest ∧
      parsed.value.inorder = left.inorder ++ nodes ∧ Spelt nodes used

theorem not_tooDeep_append {xs ys : List Finding} (h : ¬ TooDeep (xs ++ ys)) :
    ¬ TooDeep xs ∧ ¬ TooDeep ys := by
  rwa [tooDeep_append, not_or] at h

/-- Reading a parenthesis takes this parenthesis or nothing. -/
theorem expect_cases (eof : Span) (kind : Kind String) (goal : Goal) (tokens : Tokens) :
    ∃ close : Tokens, tokens = close ++ (expect eof kind goal tokens).rest ∧
      (∀ token ∈ close, token.kind = kind) ∧ close.length ≤ 1 := by
  unfold expect
  split
  · next token rest =>
    split
    · next hkind => exact ⟨[token], rfl, by simpa using hkind, Nat.le_refl 1⟩
    · exact ⟨[], rfl, by simp, Nat.zero_le 1⟩
  · exact ⟨[], rfl, by simp, Nat.zero_le 1⟩

/-- Expressions are gone through as they were read. -/
theorem reading_traverses (eof : Span) :
    (∀ room goal tokens, Traverses tokens (operand eof room goal tokens)) ∧
    (∀ room floor left tokens, Continues left tokens (fold eof room floor left tokens)) ∧
    ∀ room floor goal tokens, Traverses tokens (expression eof room floor goal tokens) := by
  refine reading_induction eof
    (P := fun _ _ tokens parsed => Traverses tokens parsed)
    (Q := fun _ _ left tokens parsed => Continues left tokens parsed)
    (R := fun _ _ _ tokens parsed => Traverses tokens parsed)
    ?nothing ?number ?name ?sign ?group ?full ?stop ?operator ?fullFold ?whole
  case nothing =>
    intro room goal tokens _ _
    exact ⟨rfl, [], rfl, .nil⟩
  case number =>
    intro room goal token v rest hlead _
    have hkind := Kind.lead_eq_number.1 hlead
    refine ⟨rfl, [token], rfl, .single ⟨hkind.symm, ?_⟩ (by rw [hkind]; rfl)⟩
    rintro _ ⟨⟩
    rfl
  case name =>
    intro room goal token x rest hlead _
    have hkind := Kind.lead_eq_name.1 hlead
    refine ⟨rfl, [token], rfl, .single ⟨hkind.symm, ?_⟩ (by rw [hkind]; rfl)⟩
    rintro _ ⟨⟩
    rfl
  case sign =>
    intro room goal token op rest hlead ih hdeep
    rcases ih (not_tooDeep_append hdeep).1 with ⟨hanchored, used, hused, hspelt⟩
    have hkind := Kind.eq_kind_of_lead hlead
    have hsign : Node.StandsFor ⟨op.kind, some token.span⟩ token := by
      refine ⟨hkind, ?_⟩
      rintro _ ⟨⟩
      rfl
    refine ⟨hanchored, token :: used, congrArg (token :: ·) hused, ?_⟩
    exact (Spelt.single hsign (by rw [← hkind]; cases op <;> rfl)).append hspelt
  case group =>
    intro room goal token rest hlead ih hdeep
    rcases ih (not_tooDeep_append hdeep).1 with ⟨hanchored, used, hused, hspelt⟩
    rcases expect_cases eof .rightParen .group
      (expression eof room .bottom .group rest).rest with ⟨close, hrest, hclose, hlength⟩
    refine ⟨hanchored, token :: (used ++ close), ?_,
      hspelt.group (Kind.lead_eq_group.1 hlead) hclose hlength⟩
    rw [List.cons_append, List.append_assoc]
    exact congrArg (token :: ·) (hused.trans (congrArg (used ++ ·) hrest))
  case full =>
    intro goal token rest _ hdeep
    exact absurd (tooDeep_giveUp eof _) hdeep
  case stop =>
    intro room floor left tokens _ _ hleft
    exact ⟨hleft, [], [], rfl, (List.append_nil _).symm, .nil⟩
  case operator =>
    intro room floor left token op rest hop _ ihRight ihFold hdeep hleft
    -- The left operand has been gone through, so the operator and its right operand come next.
    rcases not_tooDeep_append hdeep with ⟨hdeepRight, hdeepFold⟩
    rcases ihRight hdeepRight with ⟨hright, used, hused, hspelt⟩
    have hbinary : (Expr.binary left.span op left
        (expression eof room op.prec .rightOperand rest).value).isAnchored = true := by
      simp [Expr.isAnchored, hleft, hright]
    rcases ihFold _ _ hdeepFold hbinary with ⟨hall, nodes, used', hused', hnodes, hspelt'⟩
    have hkind := Kind.eq_kind_of_binOp? hop
    have hoperator : Node.StandsFor ⟨op.kind, none⟩ token := by
      refine ⟨hkind, ?_⟩
      rintro _ ⟨⟩
    have hfirst := Spelt.single hoperator (by rw [← hkind]; cases op <;> rfl)
    refine ⟨hall, _, token :: (used ++ used'), ?_, ?_, hfirst.append (hspelt.append hspelt')⟩
    · rw [List.cons_append, List.append_assoc]
      exact congrArg (token :: ·) (hused.trans (congrArg (used ++ ·) hused'))
    · rw [Parsed.value_andThen, hnodes, Expr.inorder]
      simp
  case fullFold =>
    intro floor left token op rest _ _ hdeep
    exact absurd (tooDeep_giveUp eof _) hdeep
  case whole =>
    intro room floor goal tokens ihOperand ihFold hdeep
    rcases not_tooDeep_append hdeep with ⟨hdeepOperand, hdeepFold⟩
    rcases ihOperand hdeepOperand with ⟨hoperand, used, hused, hspelt⟩
    rcases ihFold _ _ hdeepFold hoperand with ⟨hall, nodes, used', hused', hnodes, hspelt'⟩
    refine ⟨hall, used ++ used', ?_, ?_⟩
    · rw [List.append_assoc]
      exact hused.trans (congrArg (used ++ ·) hused')
    · have hvalue : (expression eof room floor goal tokens).value.inorder = _ := hnodes
      rw [hvalue]
      exact hspelt.append hspelt'

/-- Behind an expression no operator is in view that binds tighter than its floor. -/
theorem expression_stops (eof : Span) :
    (∀ room floor left tokens, Stops floor (fold eof room floor left tokens).rest) ∧
    ∀ room floor goal tokens, Stops floor (expression eof room floor goal tokens).rest := by
  refine (reading_induction eof
    (P := fun _ _ _ _ => True)
    (Q := fun _ floor _ _ parsed => Stops floor parsed.rest)
    (R := fun _ floor _ _ parsed => Stops floor parsed.rest)
    ?nothing ?number ?name ?sign ?group ?full ?stop ?operator ?fullFold ?whole).2
  case nothing | number | name | sign | group | full => intros; trivial
  case stop =>
    intro room floor left tokens hstop
    exact hstop
  case operator =>
    intro room floor left token op rest _ _ _ ihFold
    exact ihFold _ _
  case fullFold =>
    intro floor left token op rest _ _
    exact stops_skip floor 0 _
  case whole =>
    intro room floor goal tokens _ ihFold
    exact ihFold _ _

/-- Where no operator binds tighter than nothing, no operator is in view. -/
theorem binOp?_of_stops_bottom {tokens : Tokens} (h : Stops .bottom tokens) (eof : Span) :
    ∀ kind ∈ (tokens.view eof).kind, kind.binOp? = none := by
  cases tokens with
  | nil =>
    rintro kind ⟨⟩
  | cons token rest =>
    rintro _ ⟨⟩
    cases hop : token.kind.binOp? with
    | none => rfl
    | some op =>
      have hprec : Prec.bottom < op.prec := by cases op <;> decide
      exact absurd hprec (stops_cons.1 h op hop)

end Parse

/-! ## Expressions of a parser -/

namespace Context

variable (ctx : Context) (parser : Parser)

/-- The expression that is parsed is the one that was read, over the symbols of the context. -/
theorem map_name_parseExpression :
    (ctx.parseExpression parser).value.1.map Symbol.name
      = (Parse.expression parser.eof Parse.maxDepth .bottom .expression parser.tokens).value :=
  Expr.map_map_of_leftInverse (fun name => Interner.name_symbol _ name) _

/-- What is found in an expression is reported. -/
theorem mem_reported_parseExpression {f : Finding}
    (h : f ∈ (Parse.expression parser.eof Parse.maxDepth .bottom .expression
      parser.tokens).findings) :
    f.diagnostic parser.path
      ∈ (ctx.parseExpression parser).context.diagnostics.toList.drop ctx.diagnostics.size := by
  have hreported := diagnostics_record
    { ctx with interner := (ctx.interner.internExpr parser.expression.1).2 } parser.path
    parser.expression.2.1
  have hnew : (ctx.parseExpression parser).context.diagnostics.toList = _ := hreported
  rw [hnew, ← Array.length_toList, List.drop_left]
  apply List.mem_map_of_mem
  exact (findings_weave ..).mem_iff.2 (List.mem_append_right _ h)

end Context

/-- Reading an expression loses, repeats and reorders nothing.  In every state of a parser, and
however wrong the source is, no operator is left in view.  Unless an expression is reported as
nested too deeply, the way through the expression that is read is that of the tokens that are taken,
without the parentheses: numbers, variables and signs have the places of their tokens, operators
that of their left operand, and no parenthesis that closes a group is taken without one that opens
it before. -/
theorem Context.expression_traverses_tokens (ctx : Context) {parser : Parser}
    (h : parser.Reachable) :
    let outcome := ctx.parseExpression parser
    let e := outcome.value.1.map Symbol.name
    let after := outcome.value.2
    (∀ kind ∈ after.ahead.kind, kind.binOp? = none) ∧
      ((∀ d ∈ outcome.context.diagnostics.toList.drop ctx.diagnostics.size,
          d.problem ≠ .tooDeep) →
        e.isAnchored = true ∧
          ∃ used, parser.tokens = used ++ after.tokens ∧ Spelt e.inorder used) := by
  intro outcome e after
  have hshows := h.orderly.expression
  have htokens : after.tokens = _ := hshows.tokens_eq
  constructor
  · have hahead : after.ahead = after.tokens.view after.eof := hshows.orderly.ahead_eq
    rw [hahead, htokens]
    exact Parse.binOp?_of_stops_bottom ((Parse.expression_stops _).2 _ _ _ _) after.eof
  · intro hshallow
    have hdeep : ¬ Parse.TooDeep (Parse.expression parser.eof Parse.maxDepth .bottom .expression
        parser.tokens).findings := by
      rintro ⟨f, hf, hproblem⟩
      exact hshallow _ (ctx.mem_reported_parseExpression parser hf) hproblem
    have hvalue : e = _ := ctx.map_name_parseExpression parser
    rw [hvalue, htokens]
    exact (Parse.reading_traverses parser.eof).2.2 _ _ _ _ hdeep

/-- An operand and a parenthesis are missing, and the tokens are gone through all the same. -/
theorem expression_traverses_tokens_broken :
    let parser := (Parser.ofInput none (.ofString "-(1 + * 2;")).1
    let outcome := (Context.empty 0).parseExpression parser
    let e := outcome.value.1.map Symbol.name
    parser.Reachable ∧ outcome.context.diagnostics.size = 2 ∧
      outcome.value.2.ahead.kind = some .semicolon ∧
      e.inorder.map Node.kind = [.minus, .int 1, .plus, .star, .int 2] ∧
      (∀ kind ∈ outcome.value.2.ahead.kind, kind.binOp? = none) ∧
      e.isAnchored = true ∧
        ∃ used, parser.tokens = used ++ outcome.value.2.tokens ∧ Spelt e.inorder used := by
  intro parser outcome e
  have hreachable : parser.Reachable := .ofInput none _
  rcases (Context.empty 0).expression_traverses_tokens hreachable with ⟨hahead, htraverses⟩
  refine ⟨hreachable, ?_, ?_, ?_, hahead, htraverses ?_⟩
  · decide +kernel
  · decide +kernel
  · decide +kernel
  · decide +kernel

end LetCalc
