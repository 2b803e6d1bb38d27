import LetCalc.Proofs.Program.Acceptance

/-!
# Rendered programs

The text of a rendered program spells tokens that the grammar derives, and the nesting that they
take can be read off the tree.  So parsing undoes rendering as long as the text is not too deep.

Main results:

- Definition `ExprTree.writtenDepth`: the levels of nesting that a rendered expression takes.
- Theorem `Program.exists_derivation`: the tokens of a rendered program are derived as its tree.
- Theorem `Program.scans_render`: the text of a rendered program spells these tokens.
- Theorem `Context.parse_undoes_render`: parsing undoes rendering.
-/

namespace LetCalc

open Grammar

/-- The token of a sign. -/
def UnOp.kind : UnOp → Kind String
  | .plus => .plus
  | .minus => .minus

/-- The token of an operation. -/
def BinOp.kind : BinOp → Kind String
  | .add => .plus
  | .sub => .minus
  | .mul => .star
  | .div => .slash

/-! ## The tokens of a rendered program -/

variable {ι κ : Type}

/-- The levels of nesting that an expression takes when it is rendered: a sign takes a group and
itself, and an operator takes a group and, for its right operand, itself. -/
def ExprTree.writtenDepth : ExprTree ι → Nat
  | .lit _ | .var _ | .hole => 0
  | .unary _ e => 2 + e.writtenDepth
  | .binary _ l r => max (1 + l.writtenDepth) (2 + r.writtenDepth)

namespace Expr

@[simp]
theorem writtenDepth_tree_map (f : ι → κ) (e : Expr ι) :
    (e.map f).tree.writtenDepth = e.tree.writtenDepth := by
  induction e with
  | lit | var | hole => rfl
  | unary s op e ih => simp [map, tree, ExprTree.writtenDepth, ih]
  | binary s op l r ihl ihr => simp [map, tree, ExprTree.writtenDepth, ihl, ihr]

@[simp]
theorem isWhole_tree_map (f : ι → κ) (e : Expr ι) :
    (e.map f).tree.isWhole = e.tree.isWhole := by
  induction e with
  | lit | var | hole => rfl
  | unary s op e ih => exact ih
  | binary s op l r ihl ihr => simp [map, tree, ExprTree.isWhole, ihl, ihr]

/-- The tokens of a rendered expression. -/
def kinds : Expr String → List (Kind String)
  | lit _ v => [.int v]
  | var _ x => [.identifier x]
  | unary _ op e => .leftParen :: ((op.kind :: e.kinds) ++ [.rightParen])
  | binary _ op l r => .leftParen :: ((l.kinds ++ op.kind :: r.kinds) ++ [.rightParen])
  | hole _ => []

/-- A rendered expression is derived as its tree, with the nesting that it takes. -/
theorem exists_derivation (e : Expr String) (h : e.tree.isWhole = true) :
    ∃ d : Derivation .primary e.kinds e.tree, d.demand = e.tree.writtenDepth := by
  induction e with
  | lit s v => exact ⟨.int v, rfl⟩
  | var s x => exact ⟨.name x, rfl⟩
  | hole s => cases h
  | unary s op e ih =>
    rcases ih h with ⟨d, hd⟩
    have hdemand : 1 + (1 + d.demand) = 2 + e.tree.writtenDepth := by omega
    cases op with
    | plus => exact ⟨.group (.ofTerm (.ofUnary (.plus (.ofPrimary d)))), hdemand⟩
    | minus => exact ⟨.group (.ofTerm (.ofUnary (.minus (.ofPrimary d)))), hdemand⟩
  | binary s op l r ihl ihr =>
    have hwhole : l.tree.isWhole = true ∧ r.tree.isWhole = true := by
      simpa [tree, ExprTree.isWhole] using h
    rcases ihl hwhole.1 with ⟨dl, hl⟩
    rcases ihr hwhole.2 with ⟨dr, hr⟩
    have hdemand : 1 + max dl.demand (0 + 1 + dr.demand)
        = max (1 + l.tree.writtenDepth) (2 + r.tree.writtenDepth) := by omega
    cases op with
    | add =>
      exact ⟨.group (.add (.ofTerm (.ofUnary (.ofPrimary dl))) (.ofUnary (.ofPrimary dr))), hdemand⟩
    | sub =>
      exact ⟨.group (.sub (.ofTerm (.ofUnary (.ofPrimary dl))) (.ofUnary (.ofPrimary dr))), hdemand⟩
    | mul => exact ⟨.group (.ofTerm (.mul (.ofUnary (.ofPrimary dl)) (.ofPrimary dr))), hdemand⟩
    | div => exact ⟨.group (.ofTerm (.div (.ofUnary (.ofPrimary dl)) (.ofPrimary dr))), hdemand⟩

end Expr

/-- How deep expressions are written does not depend on names. -/
theorem Program.writtenDepth_le_iff (f : ι → κ) (program : Program ι) {n : Nat} :
    (∀ stmt ∈ program.stmts, stmt.expr.tree.writtenDepth ≤ n) ↔
      ∀ tree ∈ (program.map f).trees, tree.expr.writtenDepth ≤ n := by
  simp [trees, map]

/-- The tokens of a rendered statement. -/
def Stmt.kinds : Stmt String → List (Kind String)
  | bind _ x e => .keywordLet :: .identifier x :: .equal :: (e.kinds ++ [.semicolon])
  | print _ e => .keywordPrint :: (e.kinds ++ [.semicolon])

theorem Stmt.exists_derivation (stmt : Stmt String) (h : stmt.expr.tree.isWhole = true) :
    ∃ d : StmtDerivation stmt.kinds stmt.tree, d.demand = stmt.expr.tree.writtenDepth := by
  rcases stmt.expr.exists_derivation h with ⟨d, hd⟩
  cases stmt with
  | bind s x e => exact ⟨.bind x (.ofTerm (.ofUnary (.ofPrimary d))), hd⟩
  | print s e => exact ⟨.print (.ofTerm (.ofUnary (.ofPrimary d))), hd⟩

/-- The tokens of rendered statements are derived as their trees. -/
theorem Program.exists_derivation (stmts : List (Stmt String))
    (h : ∀ stmt ∈ stmts, stmt.expr.tree.isWhole = true) :
    ∃ d : ProgramDerivation (stmts.flatMap Stmt.kinds) (stmts.map Stmt.tree),
      d.demands = stmts.map fun stmt => stmt.expr.tree.writtenDepth := by
  induction stmts with
  | nil => exact ⟨.nil, rfl⟩
  | cons stmt rest ih =>
    rcases stmt.exists_derivation (h stmt (List.mem_cons_self ..)) with ⟨d, hd⟩
    rcases ih fun stmt' hmem => h stmt' (List.mem_cons_of_mem _ hmem) with ⟨ds, hds⟩
    exact ⟨.cons d ds, by simp [ProgramDerivation.demands, hd, hds]⟩

/-! ## The text of a rendered program -/

/-- The text of a rendered expression spells its tokens, up to a character that belongs to no
word. -/
theorem Expr.scans_render (e : Expr String) (hwhole : e.tree.isWhole = true)
    (hnames : ∀ x ∈ e.vars, isName x = true) {cs : List Char} {ks : List (Kind String)}
    (hcs : ∀ c ∈ cs.head?, continuesWord c = false) (h : Scans .gap cs ks) :
    Scans .gap (e.render.toList ++ cs) (e.kinds ++ ks) := by
  induction e generalizing cs ks with
  | lit s v =>
    refine Scans.int v ?_ h
    intro c hc
    have hcontinues := hcs c hc
    simp only [continuesWord, Bool.or_eq_false_iff] at hcontinues
    exact hcontinues.2
  | var s x =>
    have hname : Kind.isSpellable (.identifier x) = true := hnames x (by simp [vars])
    have hscans := Scans.token hname hcs h
    exact hscans
  | hole s => cases hwhole
  | unary s op e ih =>
    have hclose : Scans .gap (')' :: cs) (.rightParen :: ks) := Scans.mark rfl h
    have hinner := ih hwhole hnames (forall_head?_cons (by decide) cs) hclose
    have hsign : Scans .gap (op.text.toList ++ (e.render.toList ++ ')' :: cs))
        (op.kind :: (e.kinds ++ .rightParen :: ks)) := by
      cases op <;> exact Scans.mark rfl hinner
    have hopen : Scans .gap ('(' :: (op.text.toList ++ (e.render.toList ++ ')' :: cs)))
        (.leftParen :: op.kind :: (e.kinds ++ .rightParen :: ks)) := Scans.mark rfl hsign
    simpa [render, kinds] using hopen
  | binary s op l r ihl ihr =>
    have hwholes : l.tree.isWhole = true ∧ r.tree.isWhole = true := by
      simpa [tree, ExprTree.isWhole] using hwhole
    have hclose : Scans .gap (')' :: cs) (.rightParen :: ks) := Scans.mark rfl h
    have hright := ihr hwholes.2 (fun x hx => hnames x (List.mem_append_right _ hx))
      (forall_head?_cons (by decide) cs) hclose
    have hoperator : Scans .gap (op.text.toList ++ ' ' :: (r.render.toList ++ ')' :: cs))
        (op.kind :: (r.kinds ++ .rightParen :: ks)) := by
      have hblank := Scans.space hright
      cases op with
      | add | sub | mul => exact Scans.mark rfl hblank
      | div => exact Scans.slash (forall_head?_cons (by decide) _) hblank
    have hleft := ihl hwholes.1 (fun x hx => hnames x (List.mem_append_left _ hx))
      (forall_head?_cons (by decide) _) (Scans.space hoperator)
    have hopen : Scans .gap ('(' :: (l.render.toList ++ ' ' :: (op.text.toList ++
        ' ' :: (r.render.toList ++ ')' :: cs))))
        (.leftParen :: (l.kinds ++ op.kind :: (r.kinds ++ .rightParen :: ks))) :=
      Scans.mark rfl hleft
    simpa [render, kinds] using hopen

/-- The text of a rendered statement spells its tokens. -/
theorem Stmt.scans_render (stmt : Stmt String) (hwhole : stmt.expr.tree.isWhole = true)
    (hnames : ∀ x ∈ stmt.names, isName x = true) {cs : List Char} {ks : List (Kind String)}
    (h : Scans .gap cs ks) : Scans .gap (stmt.render.toList ++ cs) (stmt.kinds ++ ks) := by
  have hline : Scans .gap (';' :: '\n' :: cs) (.semicolon :: ks) :=
    Scans.mark rfl (Scans.blank (by decide) h)
  cases stmt with
  | bind s x e =>
    have hvalue := e.scans_render hwhole (fun y hy => hnames y (List.mem_append_left _ hy))
      (forall_head?_cons (by decide) _) hline
    have hequal : Scans .gap (' ' :: '=' :: ' ' :: (e.render.toList ++ ';' :: '\n' :: cs))
        (.equal :: (e.kinds ++ .semicolon :: ks)) :=
      Scans.space (Scans.mark rfl (Scans.space hvalue))
    have hx : Kind.isSpellable (.identifier x) = true := hnames x (by simp [names])
    have hname := Scans.token hx (Kind.parted_space _ _) hequal
    have hlet : Kind.isSpellable .keywordLet = true := rfl
    have hkeyword := Scans.token hlet (Kind.parted_space _ _) (Scans.space hname)
    simpa [render, kinds, Kind.text] using hkeyword
  | print s e =>
    have hvalue := e.scans_render hwhole hnames (forall_head?_cons (by decide) _) hline
    have hprint : Kind.isSpellable .keywordPrint = true := rfl
    have hkeyword := Scans.token hprint (Kind.parted_space _ _) (Scans.space hvalue)
    simpa [render, kinds, Kind.text] using hkeyword

/-- The text of a rendered program spells its tokens. -/
theorem Program.scans_render (program : Program String)
    (hwhole : ∀ stmt ∈ program.stmts, stmt.expr.tree.isWhole = true)
    (hnames : ∀ x ∈ program.names, isName x = true) :
    Scans .gap program.render.toList (program.stmts.flatMap Stmt.kinds) := by
  rcases program with ⟨path, span, stmts⟩
  induction stmts with
  | nil => exact Scans.nil
  | cons stmt rest ih =>
    have hrest := ih (fun stmt' hmem => hwhole stmt' (List.mem_cons_of_mem _ hmem))
      (fun x hx => hnames x (List.mem_append_right _ hx))
    have hstmt := stmt.scans_render (hwhole stmt (List.mem_cons_self ..))
      (fun x hx => hnames x (List.mem_append_left _ hx)) hrest
    simpa [render] using hstmt

/-! ## Parsing a rendered program -/

namespace Expr

/-- A one behind `n` signs. -/
def signs : Nat → Expr ι
  | 0 => lit (.single .start) 1
  | n + 1 => unary (.single .start) .minus (signs n)

@[simp]
theorem writtenDepth_signs (n : Nat) : (signs n : Expr ι).tree.writtenDepth = 2 * n := by
  induction n with
  | zero => rfl
  | succ n ih =>
    rw [signs, tree, ExprTree.writtenDepth, ih]
    omega

@[simp]
theorem isWhole_signs (n : Nat) : (signs n : Expr ι).tree.isWhole = true := by
  induction n with
  | zero => rfl
  | succ n ih => exact ih

@[simp]
theorem vars_signs (n : Nat) : (signs n : Expr ι).vars = [] := by
  induction n with
  | zero => rfl
  | succ n ih => exact ih

end Expr

/-- Gives `x` the value of a one behind `n` signs. -/
def Program.signs (n : Nat) : Program Symbol :=
  ⟨none, .single .start, [.bind (.single .start) ⟨0, 0, "x"⟩ (.signs n)]⟩

namespace Context

/-- A rendered program is parsed without a report exactly if no expression is written too deep, and
then it is parsed as itself. -/
theorem reported_render (ctx : Context) (path : Option String) {program : Program String}
    (hwhole : ∀ stmt ∈ program.stmts, stmt.expr.tree.isWhole = true)
    (hnames : ∀ x ∈ program.names, isName x = true) :
    (ctx.reported path (Input.ofString program.render) = [] ↔
        ∀ tree ∈ program.trees, tree.expr.writtenDepth ≤ Parse.maxDepth) ∧
      (ctx.reported path (Input.ofString program.render) = [] →
        ((ctx.parse path (Input.ofString program.render)).value.map Symbol.name).trees
          = program.trees) := by
  rcases Input.tokens_ofString (program.scans_render hwhole hnames) with ⟨htokens, hscan⟩
  rcases Program.exists_derivation program.stmts hwhole with ⟨d, hdemands⟩
  constructor
  · rw [reported_eq_nil_iff, Parse.stmts_clean_iff _ d htokens, hdemands]
    simp [hscan, Program.trees]
  · intro hclean
    exact ctx.trees_eq_of_derivation path _ (htokens ▸ d) hclean

/-- Parsing undoes rendering: a program without missing parts, whose names can be spelled, is parsed
from its rendered text without an error exactly if no expression is written too deep, and then the
result is the same program, up to places and with symbols compared by name. -/
theorem parse_undoes_render (table : Nat) (path : Option String) (program : Program Symbol)
    (hwhole : ∀ stmt ∈ program.stmts, stmt.expr.tree.isWhole = true)
    (hnames : ∀ x ∈ program.names, isName x.name = true) :
    let again := (empty table).parse path (Input.ofString (program.map Symbol.name).render)
    (again.context.errorCount = 0 ↔
        ∀ stmt ∈ program.stmts, stmt.expr.tree.writtenDepth ≤ Parse.maxDepth) ∧
      (again.context.errorCount = 0 →
        (again.value.map Symbol.name).trees = (program.map Symbol.name).trees) := by
  have hwhole' : ∀ stmt ∈ (program.map Symbol.name).stmts, stmt.expr.tree.isWhole = true := by
    intro stmt hstmt
    rcases List.mem_map.1 hstmt with ⟨original, hmem, rfl⟩
    simpa using hwhole original hmem
  have hnames' : ∀ x ∈ (program.map Symbol.name).names, isName x = true := by
    intro x hx
    rw [Program.names_map] at hx
    rcases List.mem_map.1 hx with ⟨symbol, hmem, rfl⟩
    exact hnames symbol hmem
  rcases (empty table).reported_render path hwhole' hnames' with ⟨hiff, htrees⟩
  simp only [errorCount_parse_empty]
  rw [Program.writtenDepth_le_iff Symbol.name]
  exact ⟨hiff, htrees⟩

/-- The boundary for signs: 256 of them are parsed as they were rendered, and one more is too
deep. -/
theorem parse_undoes_render_signs :
    (∀ stmt ∈ (Program.signs 256).stmts, stmt.expr.tree.isWhole = true) ∧
      (∀ x ∈ (Program.signs 256).names, isName x.name = true) ∧
      ((empty 0).parse none
        (Input.ofString ((Program.signs 256).map Symbol.name).render)).context.errorCount = 0 ∧
      (((empty 0).parse none
          (Input.ofString ((Program.signs 256).map Symbol.name).render)).value.map
            Symbol.name).trees
        = ((Program.signs 256).map Symbol.name).trees ∧
      ((empty 0).parse none
        (Input.ofString ((Program.signs 257).map Symbol.name).render)).context.errorCount ≠ 0 := by
  have hwhole : ∀ n, ∀ stmt ∈ (Program.signs n).stmts, stmt.expr.tree.isWhole = true := by
    simp [Program.signs, Stmt.expr]
  have hnames : ∀ n, ∀ x ∈ (Program.signs n).names, isName x.name = true := by
    intro n x hx
    simp only [Program.signs, Program.names, List.flatMap_singleton, Stmt.names, Expr.vars_signs,
      List.nil_append, List.mem_singleton] at hx
    subst hx
    decide
  have hround := parse_undoes_render 0 none (Program.signs 256) (hwhole 256) (hnames 256)
  have hclean := hround.1.2 (by simp [Program.signs, Stmt.expr, Parse.maxDepth])
  have hdeep := (parse_undoes_render 0 none (Program.signs 257) (hwhole 257) (hnames 257)).1
  refine ⟨hwhole 256, hnames 256, hclean, hround.2 hclean, ?_⟩
  intro hzero
  have hle := hdeep.1 hzero
  simp [Program.signs, Stmt.expr, Parse.maxDepth] at hle

end Context

end LetCalc
