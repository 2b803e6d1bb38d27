import LetCalc.Proofs.Program.Acceptance
import Mathlib.Tactic.Ring

/-!
# Nesting of parsed expressions

The levels of nesting that the parser counts are given back when an operand is complete, while the
operand keeps its height.  So what the limit bounds on the way from the root of a parsed expression
to a leaf is not the number of operators but the number of turns: of steps to the operand of a sign
or to a right operand.  Steps to a left operand are free.  As each group that stands in front of a
chain of operators has one level less for its own chain, the height of a parsed expression is still
bounded, but by the sum of all numbers up to the limit.

Main results:

- Theorem `Parse.turns_le_room`: no path makes more turns than there is room for.
- Theorem `Parse.height_le_reach`: how high an expression can get with some room.
- Theorem `Parse.exists_height_eq_reach`: expressions that get as high as that.
- Theorem `Context.depth_limit_bounds_paths`: what the limit means for parsed sources.
- Theorem `Context.height_exactly_quadratic`: how high expressions get, whatever is left of the
  limit.
-/

namespace LetCalc

open Grammar

/-! ## Paths -/

/-- A step from an operator to one of its operands. -/
inductive Step where
  /-- To the operand of a sign. -/
  | under
  | left
  | right
deriving DecidableEq, Repr

/-- The number of steps that do not go to a left operand. -/
def turns (path : List Step) : Nat := path.countP (· ≠ .left)

/-- The number of steps to a left operand. -/
def lefts (path : List Step) : Nat := path.count .left

theorem length_eq_turns_add_lefts (path : List Step) :
    path.length = turns path + lefts path := by
  have hsplit := List.length_eq_countP_add_countP (fun step : Step => decide (step ≠ .left))
    (l := path)
  simpa [turns, lefts, List.count, beq_eq_decide] using hsplit

@[simp]
theorem turns_nil : turns [] = 0 := rfl

@[simp]
theorem turns_under (path : List Step) : turns (.under :: path) = turns path + 1 := by
  simp [turns]

@[simp]
theorem turns_right (path : List Step) : turns (.right :: path) = turns path + 1 := by
  simp [turns]

@[simp]
theorem turns_left (path : List Step) : turns (.left :: path) = turns path := rfl

variable {ι κ : Type}

/-- The paths from the root of an expression to its leaves. -/
def ExprTree.paths : ExprTree ι → List (List Step)
  | .lit _ | .var _ | .hole => [[]]
  | .unary _ e => e.paths.map (.under :: ·)
  | .binary _ l r => l.paths.map (.left :: ·) ++ r.paths.map (.right :: ·)

/-- No path makes more than `n` turns. -/
def ExprTree.TurnsLe (n : Nat) (t : ExprTree ι) : Prop := ∀ p ∈ t.paths, turns p ≤ n

namespace ExprTree

theorem TurnsLe.mono {m n : Nat} {t : ExprTree ι} (h : t.TurnsLe m) (hmn : m ≤ n) :
    t.TurnsLe n := by
  intro p hp
  exact Nat.le_trans (h p hp) hmn

theorem turnsLe_hole (n : Nat) : (hole : ExprTree ι).TurnsLe n := by
  simp [TurnsLe, paths]

theorem TurnsLe.unary {n : Nat} {e : ExprTree ι} (h : e.TurnsLe n) (op : UnOp) :
    (ExprTree.unary op e).TurnsLe (n + 1) := by
  intro p hp
  rcases List.mem_map.1 hp with ⟨q, hq, rfl⟩
  rw [turns_under]
  exact Nat.succ_le_succ (h q hq)

/-- A step to a left operand is free. -/
theorem TurnsLe.binary {n : Nat} {l r : ExprTree ι} (hl : l.TurnsLe (n + 1)) (hr : r.TurnsLe n)
    (op : BinOp) : (ExprTree.binary op l r).TurnsLe (n + 1) := by
  intro p hp
  rcases List.mem_append.1 hp with hp | hp
  · rcases List.mem_map.1 hp with ⟨q, hq, rfl⟩
    rw [turns_left]
    exact hl q hq
  · rcases List.mem_map.1 hp with ⟨q, hq, rfl⟩
    rw [turns_right]
    exact Nat.succ_le_succ (hr q hq)

end ExprTree

/-- The number of operators on the longest path. -/
def ExprTree.height : ExprTree ι → Nat
  | .lit _ | .var _ | .hole => 0
  | .unary _ e => e.height + 1
  | .binary _ l r => max l.height r.height + 1

namespace ExprTree

theorem length_le_height {t : ExprTree ι} {p : List Step} (h : p ∈ t.paths) :
    p.length ≤ t.height := by
  induction t generalizing p with
  | lit | var | hole =>
    cases List.mem_singleton.1 h
    exact Nat.zero_le _
  | unary op e ih =>
    rcases List.mem_map.1 h with ⟨q, hq, rfl⟩
    exact Nat.succ_le_succ (ih hq)
  | binary op l r ihl ihr =>
    rcases List.mem_append.1 h with h | h
    · rcases List.mem_map.1 h with ⟨q, hq, rfl⟩
      exact Nat.succ_le_succ (Nat.le_trans (ihl hq) (Nat.le_max_left ..))
    · rcases List.mem_map.1 h with ⟨q, hq, rfl⟩
      exact Nat.succ_le_succ (Nat.le_trans (ihr hq) (Nat.le_max_right ..))

theorem exists_path_height (t : ExprTree ι) : ∃ p ∈ t.paths, p.length = t.height := by
  induction t with
  | lit | var | hole => exact ⟨[], List.mem_singleton_self _, rfl⟩
  | unary op e ih =>
    rcases ih with ⟨p, hp, hlength⟩
    exact ⟨.under :: p, List.mem_map_of_mem hp, congrArg (· + 1) hlength⟩
  | binary op l r ihl ihr =>
    rcases Nat.le_total r.height l.height with hle | hle
    · rcases ihl with ⟨p, hp, hlength⟩
      refine ⟨.left :: p, List.mem_append_left _ (List.mem_map_of_mem hp), ?_⟩
      rw [List.length_cons, hlength, height, Nat.max_eq_left hle]
    · rcases ihr with ⟨p, hp, hlength⟩
      refine ⟨.right :: p, List.mem_append_right _ (List.mem_map_of_mem hp), ?_⟩
      rw [List.length_cons, hlength, height, Nat.max_eq_right hle]

end ExprTree

@[simp]
theorem Expr.paths_tree_map (f : ι → κ) (e : Expr ι) : (e.map f).tree.paths = e.tree.paths := by
  induction e with
  | lit | var | hole => rfl
  | unary s op e ih => simp [map, tree, ExprTree.paths, ih]
  | binary s op l r ihl ihr => simp [map, tree, ExprTree.paths, ihl, ihr]

namespace Parse

/-! ## Turns -/

/-- No path of an expression makes more turns than there was room for. -/
theorem turns_le_room (eof : Span) (room : Nat) (floor : Prec) (goal : Goal) (tokens : Tokens) :
    (expression eof room floor goal tokens).value.tree.TurnsLe room := by
  -- A fold may start from an operand that was read with more room than is left now.
  refine (reading_induction eof
    (P := fun room _ _ parsed => parsed.value.tree.TurnsLe room)
    (Q := fun room _ left _ parsed => ∀ n, room ≤ n → left.tree.TurnsLe n →
      parsed.value.tree.TurnsLe n)
    (R := fun room _ _ _ parsed => parsed.value.tree.TurnsLe room)
    ?nothing ?number ?name ?sign ?group ?full ?stop ?operator ?fullFold ?whole).2.2
    room floor goal tokens
  case nothing =>
    intro room goal tokens _
    exact ExprTree.turnsLe_hole room
  case number | name =>
    intro room goal token v rest _ p hp
    cases List.mem_singleton.1 hp
    exact Nat.zero_le room
  case sign =>
    intro room goal token op rest _ ih
    exact ih.unary op
  case group =>
    intro room goal token rest _ ih
    exact ih.mono (Nat.le_succ room)
  case full =>
    intro goal token rest _
    exact ExprTree.turnsLe_hole 0
  case stop =>
    intro room floor left tokens _ n _ hleft
    exact hleft
  case operator =>
    intro room floor left token op rest _ _ ihRight ihFold n hroom hleft
    rcases Nat.exists_eq_add_one_of_ne_zero (Nat.ne_zero_of_lt hroom) with ⟨m, rfl⟩
    have hright := ihRight.mono (Nat.le_of_succ_le_succ hroom)
    exact ihFold _ _ (m + 1) (Nat.le_of_succ_le hroom) (hleft.binary hright op)
  case fullFold =>
    intro floor left token op rest _ _ n _ _
    exact ExprTree.turnsLe_hole n
  case whole =>
    intro room floor goal tokens ihOperand ihFold
    exact ihFold _ _ room (Nat.le_refl room) ihOperand

/-- Every expression of a statement was read from the loosest floor with all the room there is. -/
theorem exists_expression_of_mem_stmts (eof : Span) (tokens : Tokens) :
    ∀ st ∈ (stmts eof tokens).value, ∃ goal tokens',
      st.expr = (expression eof maxDepth .bottom goal tokens').value := by
  refine stmts_induction eof
    (P := fun _ parsed => ∀ st ∈ parsed.value, ∃ goal tokens',
      st.expr = (expression eof maxDepth .bottom goal tokens').value)
    ?nil ?keyword ?skip tokens
  case nil =>
    intro st hst
    cases hst
  case keyword =>
    intro token word rest _ ih st hst
    rcases List.mem_cons.1 hst with rfl | hst
    · cases word with
      | bind => exact ⟨.initializer, _, rfl⟩
      | print => exact ⟨.printStatement, _, rfl⟩
    · exact ih st hst
  case skip =>
    intro token rest _ ih
    exact ih

/-! ## Height -/

/-- How high an expression can get with some room: a chain of as many operators as there are levels,
onto a sign or a group that has one level less. -/
def reach : Nat → Nat
  | 0 => 0
  | room + 1 => room + 1 + max 1 (reach room)

theorem two_mul_reach (room : Nat) :
    2 * reach (room + 1) = (room + 1) * (room + 1 + 1) + 2 := by
  induction room with
  | zero => rfl
  | succ room ih =>
    have hpos : 1 ≤ reach (room + 1) := by
      rw [reach]
      omega
    calc 2 * reach (room + 1 + 1)
        = 2 * (room + 1 + 1) + 2 * reach (room + 1) := by
          rw [reach, Nat.max_eq_right hpos, Nat.mul_add]
      _ = (room + 1 + 1) * (room + 1 + 1 + 1) + 2 := by
          rw [ih]
          ring

theorem reach_eq {room : Nat} (h : 0 < room) : reach room = room * (room + 1) / 2 + 1 := by
  rcases Nat.exists_eq_add_one_of_ne_zero (Nat.ne_zero_of_lt h) with ⟨less, rfl⟩
  have hdouble := two_mul_reach less
  omega

theorem le_reach (room : Nat) : room ≤ reach room := by
  cases room with
  | zero => exact Nat.le_refl 0
  | succ room => exact Nat.le_add_right _ _

/-- No operator binds tighter than a sign, so the operand of a sign is a single operand. -/
theorem expression_unary (eof : Span) (room : Nat) (goal : Goal) (tokens : Tokens) :
    (expression eof room .unary goal tokens).value = (operand eof room goal tokens).value := by
  rw [expression, Parsed.value_andThen,
    fold_stop eof room .unary _ (stops_of_not_lt (by decide) _)]

/-- No expression gets higher than there was room for. -/
theorem height_le_reach (eof : Span) (room : Nat) (floor : Prec) (goal : Goal) (tokens : Tokens) :
    (expression eof room floor goal tokens).value.tree.height ≤ reach room := by
  -- An operand leaves as many levels of what can be reached as a chain of operators may add.
  refine ((reading_induction eof
    (P := fun room _ _ parsed => parsed.value.tree.height + room ≤ reach room)
    (Q := fun room _ left _ parsed => ∀ n, left.tree.height + room ≤ n → reach room ≤ n →
      parsed.value.tree.height ≤ n)
    (R := fun room floor _ _ parsed => parsed.value.tree.height ≤ reach room ∧
      (floor = .unary → parsed.value.tree.height + room ≤ reach room))
    ?nothing ?number ?name ?sign ?group ?full ?stop ?operator ?fullFold ?whole).2.2
    room floor goal tokens).1
  case nothing =>
    intro room goal tokens _
    simpa [Expr.tree, ExprTree.height] using le_reach room
  case number | name =>
    intro room goal token v rest _
    simpa [Expr.tree, ExprTree.height] using le_reach room
  case sign =>
    intro room goal token op rest _ ih
    have hoperand := ih.2 rfl
    simp only [Parsed.value_andThen, Expr.tree, ExprTree.height, reach]
    cases room with
    | zero =>
      rw [reach] at hoperand
      omega
    | succ room => omega
  case group =>
    intro room goal token rest _ ih
    have hinner := ih.1
    simp only [Parsed.value_andThen, reach]
    omega
  case full =>
    intro goal token rest _
    exact Nat.le_refl 0
  case stop =>
    intro room floor left tokens _ n hleft _
    exact Nat.le_trans (Nat.le_add_right ..) hleft
  case operator =>
    intro room floor left token op rest _ _ ihRight ihFold n hleft hreach
    have hright := ihRight.1
    rw [reach] at hreach
    refine ihFold _ _ n ?_ (by omega)
    simp only [Expr.tree, ExprTree.height]
    omega
  case fullFold =>
    intro floor left token op rest _ _ n _ _
    exact Nat.zero_le n
  case whole =>
    intro room floor goal tokens ihOperand ihFold
    refine ⟨ihFold _ _ (reach room) ihOperand (Nat.le_refl _), ?_⟩
    rintro rfl
    rw [expression_unary]
    exact ihOperand

/-! ## The highest expressions -/

/-- The tokens of an operand and of `n` ones added to it. -/
def sumKinds (ks : List (Kind String)) : Nat → List (Kind String)
  | 0 => ks
  | n + 1 => sumKinds ks n ++ .plus :: [.int 1]

/-- An operand and `n` ones added to it. -/
def sumTree (t : ExprTree String) : Nat → ExprTree String
  | 0 => t
  | n + 1 => .binary .add (sumTree t n) (.lit 1)

/-- The sum is derived from left to right. -/
def sumDerivation {ks : List (Kind String)} {t : ExprTree String} (first : Derivation .unary ks t) :
    (n : Nat) → Derivation .expr (sumKinds ks n) (sumTree t n)
  | 0 => .ofTerm (.ofUnary first)
  | n + 1 => .add (sumDerivation first n) (.ofUnary (.ofPrimary (.int 1)))

theorem height_sumTree (t : ExprTree String) (n : Nat) : (sumTree t n).height = t.height + n := by
  induction n with
  | zero => rfl
  | succ n ih => simp [sumTree, ExprTree.height, ih, Nat.add_assoc]

section Sum

variable {ks : List (Kind String)} {t : ExprTree String} (first : Derivation .unary ks t)

theorem folds_sumDerivation (n : Nat) : (sumDerivation first n).folds = n := by
  induction n with
  | zero => rfl
  | succ n ih => exact congrArg (· + 1) ih

/-- What the first operand demands is forgotten when it is complete. -/
theorem demand_sumDerivation (n : Nat) : (sumDerivation first n).demand = max first.demand n := by
  induction n with
  | zero => exact (Nat.max_zero _).symm
  | succ n ih =>
    have hstep : (sumDerivation first (n + 1)).demand
        = max (sumDerivation first n).demand ((sumDerivation first n).folds + 1 + 0) := rfl
    rw [hstep, ih, folds_sumDerivation]
    omega

theorem isSpellable_of_mem_sumKinds (hks : ∀ kind ∈ ks, kind.isSpellable = true) {n : Nat} :
    ∀ kind ∈ sumKinds ks n, kind.isSpellable = true := by
  induction n with
  | zero => exact hks
  | succ n ih =>
    simp only [sumKinds, List.mem_append, List.mem_cons, List.not_mem_nil, or_false]
    rintro kind (hkind | rfl | rfl)
    · exact ih kind hkind
    · rfl
    · rfl

end Sum

/-- The tokens of groups in groups around a negative one, each group the first operand of a longer
sum than the one in it. -/
def towerKinds : Nat → List (Kind String)
  | 0 => [.minus, .int 1]
  | n + 1 => .leftParen :: (sumKinds (towerKinds n) (n + 1) ++ [.rightParen])

/-- Sums in sums around a negative one, each sum the first operand of a longer one. -/
def towerTree : Nat → ExprTree String
  | 0 => .unary .minus (.lit 1)
  | n + 1 => sumTree (towerTree n) (n + 1)

/-- The tower is derived as an operand. -/
def towerDerivation : (n : Nat) → Derivation .unary (towerKinds n) (towerTree n)
  | 0 => .minus (.ofPrimary (.int 1))
  | n + 1 => .ofPrimary (.group (sumDerivation (towerDerivation n) (n + 1)))

theorem height_towerTree (n : Nat) : (towerTree n).height = max 1 (reach n) := by
  induction n with
  | zero => rfl
  | succ n ih =>
    rw [towerTree, height_sumTree, ih, reach]
    omega

theorem demand_towerDerivation (n : Nat) : (towerDerivation n).demand = n + 1 := by
  induction n with
  | zero => rfl
  | succ n ih =>
    have hstep : (towerDerivation (n + 1)).demand
        = 1 + (sumDerivation (towerDerivation n) (n + 1)).demand := rfl
    rw [hstep, demand_sumDerivation, ih]
    omega

theorem isSpellable_of_mem_towerKinds (n : Nat) :
    ∀ kind ∈ towerKinds n, kind.isSpellable = true := by
  induction n with
  | zero =>
    simp only [towerKinds, List.mem_cons, List.not_mem_nil, or_false]
    rintro kind (rfl | rfl) <;> rfl
  | succ n ih =>
    simp only [towerKinds, List.mem_cons, List.mem_append, List.not_mem_nil, or_false]
    rintro kind (rfl | hkind | rfl)
    · rfl
    · exact isSpellable_of_mem_sumKinds ih kind hkind
    · rfl

/-- Whatever the room, some expression that is derived with it gets as high as there is room for. -/
theorem exists_height_eq_reach (room : Nat) :
    ∃ ks t, ∃ d : Derivation .expr ks t,
      (∀ kind ∈ ks, kind.isSpellable = true) ∧ d.demand ≤ room ∧ t.height = reach room := by
  cases room with
  | zero =>
    refine ⟨[.int 1], .lit 1, .ofTerm (.ofUnary (.ofPrimary (.int 1))), ?_, Nat.le_refl 0, rfl⟩
    intro kind hkind
    cases List.mem_singleton.1 hkind
    rfl
  | succ room =>
    refine ⟨_, _, sumDerivation (towerDerivation room) (room + 1),
      isSpellable_of_mem_sumKinds (isSpellable_of_mem_towerKinds room), ?_, ?_⟩
    · rw [demand_sumDerivation, demand_towerDerivation, Nat.max_self]
    · rw [height_sumTree, height_towerTree, reach, Nat.add_comm]

/-- An expression that is read with some room left is no higher than the sum of all numbers up to
this room and one. -/
theorem length_le_of_room (eof : Span) {room : Nat} (h : 0 < room) (floor : Prec) (goal : Goal)
    (tokens : Tokens) {p : List Step}
    (hp : p ∈ (expression eof room floor goal tokens).value.tree.paths) :
    p.length ≤ room * (room + 1) / 2 + 1 :=
  reach_eq h ▸ (ExprTree.length_le_height hp).trans (height_le_reach eof room floor goal tokens)

/-- An expression that is read without room has no operator. -/
theorem length_eq_zero_of_full (eof : Span) (floor : Prec) (goal : Goal) (tokens : Tokens)
    {p : List Step} (hp : p ∈ (expression eof 0 floor goal tokens).value.tree.paths) :
    p.length = 0 :=
  Nat.le_zero.1 ((ExprTree.length_le_height hp).trans (height_le_reach eof 0 floor goal tokens))

/-- With enough room what is derived is read without a finding, and gets as high as its tree. -/
theorem exists_path_of_derivation (eof : Span) {room : Nat} (goal : Goal)
    {ks : List (Kind String)} {t : ExprTree String} (d : Derivation .expr ks t)
    (hdemand : d.demand ≤ room) {tokens : Tokens} (htokens : tokens.kinds = ks) :
    (expression eof room .bottom goal tokens).findings = [] ∧
      ∃ p ∈ (expression eof room .bottom goal tokens).value.tree.paths, p.length = t.height := by
  have hreads := (derivation_reads eof d [] (stops_nil _)).whole (stops_nil _)
  rcases (hreads room goal tokens htokens).1 hdemand with ⟨e, htree, hread⟩
  rw [List.append_nil] at hread
  rw [hread, htree]
  exact ⟨rfl, t.exists_path_height⟩

/-- Whatever the room, some tokens are read without a finding as an expression that gets as high as
there is room for. -/
theorem exists_expression_reach (eof : Span) (room : Nat) (goal : Goal) :
    ∃ tokens, (expression eof room .bottom goal tokens).findings = [] ∧
      ∃ p ∈ (expression eof room .bottom goal tokens).value.tree.paths, p.length = reach room := by
  rcases exists_height_eq_reach room with ⟨ks, t, d, -, hdemand, hheight⟩
  let tokens : Tokens := ks.map fun kind => ⟨kind, eof⟩
  have htokens : tokens.kinds = ks := by
    rw [Tokens.kinds, List.map_map]
    exact List.map_id ks
  exact ⟨tokens, hheight ▸ exists_path_of_derivation eof goal d hdemand htokens⟩

end Parse

/-! ## Parsed sources -/

/-- What the limit bounds on the paths of an expression.  A path keeps to the limit itself exactly
if its left steps fit into what its turns leave. -/
def ExprTree.Limited (n : Nat) (t : ExprTree ι) : Prop :=
  ∀ p ∈ t.paths, turns p ≤ n ∧ p.length ≤ n * (n + 1) / 2 + 1 ∧
    (p.length ≤ n ↔ lefts p ≤ n - turns p)

/-- Every expression that is read with all the room there is is limited. -/
theorem Parse.limited_expression (eof : Span) (goal : Goal) (tokens : Tokens) :
    (expression eof maxDepth .bottom goal tokens).value.tree.Limited maxDepth := by
  intro p hp
  have hturns := turns_le_room eof maxDepth .bottom goal tokens p hp
  have hlength := length_le_of_room eof (by decide) .bottom goal tokens hp
  have hsplit := length_eq_turns_add_lefts p
  exact ⟨hturns, hlength, by omega⟩

namespace Context

/-- Every expression in a parsed source is limited. -/
theorem limited_of_mem_parse (ctx : Context) (path : Option String) (input : Input)
    {stmt : Stmt Symbol} (h : stmt ∈ (ctx.parse path input).value.stmts) :
    stmt.expr.tree.Limited Parse.maxDepth := by
  have hread : stmt.map Symbol.name ∈ (Parse.stmts input.text.eof input.tokens).value := by
    have hmem : stmt.map Symbol.name ∈ ((ctx.parse path input).value.map Symbol.name).stmts :=
      List.mem_map_of_mem h
    rw [map_name_parse] at hmem
    exact hmem
  rcases Parse.exists_expression_of_mem_stmts _ _ _ hread with ⟨goal, tokens, hexpr⟩
  intro p hp
  rw [← Expr.paths_tree_map Symbol.name, ← Stmt.expr_map, hexpr] at hp
  exact Parse.limited_expression _ _ _ p hp

/-- Every parsed expression is limited. -/
theorem limited_parseExpression (ctx : Context) (parser : Parser) :
    (ctx.parseExpression parser).value.1.tree.Limited Parse.maxDepth := by
  intro p hp
  have hread : p ∈ (Parse.expression parser.eof Parse.maxDepth .bottom .expression
      parser.tokens).value.tree.paths := by
    rw [← Expr.paths_tree_map]
    exact hp
  exact Parse.limited_expression _ _ _ p hread

/-- Some source is parsed without a report as a program with an expression that gets as high as
there is room for. -/
theorem exists_highest_source (ctx : Context) (path : Option String) :
    ∃ input, ctx.reported path input = [] ∧ ∃ stmt ∈ (ctx.parse path input).value.stmts,
      ∃ p ∈ stmt.expr.tree.paths, p.length = Parse.reach Parse.maxDepth := by
  rcases Parse.exists_height_eq_reach Parse.maxDepth with ⟨ks, t, d, hspell, hdemand, hheight⟩
  let program : ProgramDerivation (.keywordPrint :: (ks ++ [.semicolon]) ++ []) [.print t] :=
    .cons (.print d) .nil
  have hspells : ∀ kind ∈ Kind.keywordPrint :: (ks ++ [.semicolon]) ++ [],
      kind.isSpellable = true := by
    simp only [List.append_nil, List.mem_cons, List.mem_append, List.not_mem_nil, or_false]
    rintro kind (rfl | hkind | rfl)
    · rfl
    · exact hspell kind hkind
    · rfl
  have hdemands : ∀ n ∈ program.demands, n ≤ Parse.maxDepth := by
    intro n hn
    cases List.mem_singleton.1 hn
    exact hdemand
  rcases ctx.parse_spaced path program hspells hdemands String.toList_ofList
    with ⟨-, -, hclean, htrees⟩
  refine ⟨_, hclean, ?_⟩
  rcases List.map_eq_singleton_iff.1 htrees with ⟨named, hnamed, htree⟩
  rcases List.map_eq_singleton_iff.1 hnamed with ⟨stmt, hstmt, rfl⟩
  have hexpr : (stmt.expr.map Symbol.name).tree = t := by
    rw [← Stmt.expr_map, ← Stmt.expr_tree, htree]
    rfl
  rcases t.exists_path_height with ⟨p, hp, hlength⟩
  refine ⟨stmt, hstmt ▸ List.mem_singleton_self stmt, p, ?_, hlength.trans hheight⟩
  rw [← Expr.paths_tree_map Symbol.name, hexpr]
  exact hp

/-- Some source is parsed as an expression that gets as high as there is room for. -/
theorem exists_highest_expression (ctx : Context) (path : Option String) :
    ∃ input, ∃ p ∈ (ctx.parseExpression (Parser.ofInput path input).1).value.1.tree.paths,
      p.length = Parse.reach Parse.maxDepth := by
  rcases Parse.exists_height_eq_reach Parse.maxDepth with ⟨ks, t, d, hspell, hdemand, hheight⟩
  let input := Input.ofString (.ofList (spaced ks))
  have htokens : input.tokens.kinds = ks :=
    (Input.tokens_ofString (String.toList_ofList ▸ scans_spaced hspell)).1
  let parser := (Parser.ofInput path input).1
  rw [← Parser.tokens_ofInput path input] at htokens
  rcases (Parse.exists_path_of_derivation parser.eof .expression d hdemand htokens).2
    with ⟨p, hp, hlength⟩
  rw [← Expr.paths_tree_map] at hp
  exact ⟨input, p, hp, hlength.trans hheight⟩

/-- What the nesting limit means for every source, well-formed or not.  No path of a parsed
expression makes more turns than the limit, and none is longer than the sum of all numbers up to
the limit and one.  Some paths are as long as that, in sources that are parsed without a report. -/
theorem depth_limit_bounds_paths (ctx : Context) (path : Option String) :
    (∀ input, ∀ stmt ∈ (ctx.parse path input).value.stmts,
      stmt.expr.tree.Limited Parse.maxDepth) ∧
    (∀ parser, (ctx.parseExpression parser).value.1.tree.Limited Parse.maxDepth) ∧
    (∃ input, ctx.reported path input = [] ∧ ∃ stmt ∈ (ctx.parse path input).value.stmts,
      ∃ p ∈ stmt.expr.tree.paths, p.length = Parse.maxDepth * (Parse.maxDepth + 1) / 2 + 1) ∧
    (∃ input, ∃ p ∈ (ctx.parseExpression (Parser.ofInput path input).1).value.1.tree.paths,
      p.length = Parse.maxDepth * (Parse.maxDepth + 1) / 2 + 1) := by
  rw [← Parse.reach_eq (by decide)]
  refine ⟨?_, ctx.limited_parseExpression, ctx.exists_highest_source path,
    ctx.exists_highest_expression path⟩
  intro input stmt hstmt
  exact ctx.limited_of_mem_parse path input hstmt

/-- How high a parsed expression gets is the sum of all numbers up to the limit and one, for whole
sources and for single expressions.  Where `depth` levels are used up when an expression is entered,
the levels that are left take the place of the limit, and without any left there is no operator. -/
theorem height_exactly_quadratic (ctx : Context) (path : Option String) :
    let bound := fun room : Nat => room * (room + 1) / 2 + 1
    (∀ input, ∀ stmt ∈ (ctx.parse path input).value.stmts, ∀ p ∈ stmt.expr.tree.paths,
      p.length ≤ bound Parse.maxDepth) ∧
    (∀ parser, ∀ p ∈ (ctx.parseExpression parser).value.1.tree.paths,
      p.length ≤ bound Parse.maxDepth) ∧
    (∃ input, ctx.reported path input = [] ∧ ∃ stmt ∈ (ctx.parse path input).value.stmts,
      ∃ p ∈ stmt.expr.tree.paths, p.length = bound Parse.maxDepth) ∧
    ∀ eof goal,
      let entered := fun depth => Parse.expression eof (Parse.maxDepth - depth)
      (∀ depth < Parse.maxDepth,
        (∀ floor tokens, ∀ p ∈ (entered depth floor goal tokens).value.tree.paths,
          p.length ≤ bound (Parse.maxDepth - depth)) ∧
        ∃ tokens, (entered depth .bottom goal tokens).findings = [] ∧
          ∃ p ∈ (entered depth .bottom goal tokens).value.tree.paths,
            p.length = bound (Parse.maxDepth - depth)) ∧
      ∀ floor tokens, ∀ p ∈ (entered Parse.maxDepth floor goal tokens).value.tree.paths,
        p.length = 0 := by
  intro bound
  refine ⟨?source, ?expression, ?highest, fun eof goal => ?nested⟩
  case source =>
    intro input stmt hstmt p hp
    exact (ctx.limited_of_mem_parse path input hstmt p hp).2.1
  case expression =>
    intro parser p hp
    exact (ctx.limited_parseExpression parser p hp).2.1
  case highest =>
    have hreach : bound Parse.maxDepth = Parse.reach Parse.maxDepth :=
      (Parse.reach_eq (by decide)).symm
    rw [hreach]
    exact ctx.exists_highest_source path
  intro entered
  refine ⟨?inner, ?full⟩
  case inner =>
    intro depth hdepth
    have hroom : 0 < Parse.maxDepth - depth := Nat.sub_pos_of_lt hdepth
    refine ⟨fun floor tokens p hp => Parse.length_le_of_room eof hroom floor goal tokens hp, ?_⟩
    have hreach : bound (Parse.maxDepth - depth) = Parse.reach (Parse.maxDepth - depth) :=
      (Parse.reach_eq hroom).symm
    rw [hreach]
    exact Parse.exists_expression_reach eof _ goal
  case full =>
    intro floor tokens p hp
    simp only [entered, Nat.sub_self] at hp
    exact Parse.length_eq_zero_of_full eof floor goal tokens hp

end Context

end LetCalc
