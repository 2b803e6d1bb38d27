import LetCalc.Program.Parser
import LetCalc.Proofs.Program.Reading
import Mathlib.Logic.Relation

/-!
# The parser as a machine with a counter

The nesting of expressions can be counted up instead of down: one counter for the whole source is
raised by every sign, group and fold, and lowered again by the operand that raised it, or set back
by the expression whose operators raised it.  This file takes the parser apart in this way, into
single steps of a machine that keeps the calls that wait for others on a stack.  The machine reads
what the parser reads, whatever calls wait, and every call finds the counter at its return as it was
when it was entered.

Main results:

- Definition `CallStack.step`: one step of the machine.
- Theorem `CallStack.reading_returns`: a call returns what the parser reads.
- Theorem `CallStack.statements_run`: the machine reads the statements of a source.
- Theorem `CallStack.State.Fits.step`: each step keeps the counter in line with the calls that wait.
- Theorem `Parser.counter_balanced`: what holds of the counter at every step.
-/

namespace LetCalc
namespace CallStack

/-! ## The machine -/

/-- A call that waits for the expression or operand that it has called. -/
inductive Frame where
  /-- An expression, entered at some depth, waits for its first operand. -/
  | first (entered : Int) (floor : Prec)
  /-- An expression, entered at some depth, waits for the right operand of an operator. -/
  | right (entered : Int) (floor : Prec) (op : BinOp) (left : Expr String)
  /-- An operand waits for the operand of its sign. -/
  | sign (span : Span) (op : UnOp)
  /-- An operand waits for the expression in a group. -/
  | group
  /-- A statement waits for the value that it binds. -/
  | bind (span : Span) (name : String)
  /-- A statement waits for the value that it prints. -/
  | print (span : Span)
deriving DecidableEq, Repr

/-- What the machine is about to do. -/
inductive Control where
  /-- It is between two statements. -/
  | statements
  /-- An expression is called. -/
  | expression (floor : Prec) (goal : Goal)
  /-- An operand is called. -/
  | operand (goal : Goal)
  /-- An expression, entered at some depth, looks for an operator to fold onto its left operand. -/
  | fold (entered : Int) (floor : Prec) (left : Expr String)
  /-- An expression sets the counter back to the depth at which it was entered. -/
  | restore (entered : Int) (e : Expr String)
  /-- An operand lowers the counter by one. -/
  | release (e : Expr String)
  /-- A call returns. -/
  | returned (e : Expr String)
deriving DecidableEq, Repr

/-- A call is about to return. -/
def Control.isReturned : Control → Bool
  | .returned _ => true
  | _ => false

/-- A state of the machine. -/
structure State where
  control : Control
  /-- The calls that wait, the innermost first. -/
  frames : List Frame
  /-- The counter. -/
  depth : Int
  tokens : Tokens
  findings : List Finding
  stmts : List (Stmt String)

/-- The state after a reading, with what to do next. -/
def State.after {α : Type} (s : State) (parsed : Parsed α) (next : α → Control) : State :=
  { s with
    control := next parsed.value
    tokens := parsed.rest
    findings := s.findings ++ parsed.findings }

/-- The state after a nested call for which the counter is raised, or after the expression has been
given up if there is no room. -/
def State.descend (eof : Span) (s : State) (frame : Frame) (call : Control) (rest : Tokens)
    (next : Expr String → Control) : State :=
  if s.depth < Parse.maxDepth then
    { s with control := call, frames := frame :: s.frames, depth := s.depth + 1, tokens := rest }
  else s.after (Parse.giveUp eof s.tokens) next

/-- One step of the machine, if there is something left to do. -/
def step (eof : Span) (s : State) : Option State :=
  match s.control with
  | .statements =>
    match s.tokens with
    | [] => none
    | token :: rest =>
      match token.kind.keyword? with
      | some .bind =>
        let name := Parse.boundName eof rest
        let parsed := name.andThen fun _ => Parse.expect eof .equal .letStatement
        some { s.after parsed fun _ => .expression .bottom .initializer with
          frames := .bind token.span name.value :: s.frames }
      | some .print =>
        some { s with
          control := .expression .bottom .printStatement
          frames := .print token.span :: s.frames
          tokens := rest }
      | none =>
        let finding := Parse.unexpected eof .statement .program (token :: rest)
        some (s.after ⟨(), rest, [finding]⟩ fun _ => .statements)
  | .expression floor goal =>
    some { s with control := .operand goal, frames := .first s.depth floor :: s.frames }
  | .operand goal =>
    match s.tokens with
    | [] => some (s.after ⟨.hole eof, [], [Parse.unexpected eof .operand goal []]⟩ .returned)
    | token :: rest =>
      match token.kind.lead with
      | .number v => some (s.after ⟨.lit token.span v, rest, []⟩ .returned)
      | .name x => some (s.after ⟨.var token.span x, rest, []⟩ .returned)
      | .sign op =>
        some (s.descend eof (.sign token.span op) (.expression .unary .signedOperand) rest
          .returned)
      | .group => some (s.descend eof .group (.expression .bottom .group) rest .returned)
      | .none =>
        let finding := Parse.unexpected eof .operand goal (token :: rest)
        some (s.after ⟨.hole token.span, token :: rest, [finding]⟩ .returned)
  | .fold entered floor left =>
    match s.tokens with
    | [] => some { s with control := .restore entered left }
    | token :: rest =>
      match token.kind.binOp? with
      | none => some { s with control := .restore entered left }
      | some op =>
        if floor < op.prec then
          some (s.descend eof (.right entered floor op left) (.expression op.prec .rightOperand)
            rest (.restore entered))
        else some { s with control := .restore entered left }
  | .restore entered e => some { s with control := .returned e, depth := entered }
  | .release e => some { s with control := .returned e, depth := s.depth - 1 }
  | .returned e =>
    match s.frames with
    | [] => none
    | .first entered floor :: frames =>
      some { s with control := .fold entered floor e, frames }
    | .right entered floor op left :: frames =>
      some { s with control := .fold entered floor (.binary left.span op left e), frames }
    | .sign span op :: frames => some { s with control := .release (.unary span op e), frames }
    | .group :: frames =>
      let closed := Parse.expect eof .rightParen .group s.tokens
      some { s.after closed fun _ => .release e with frames }
    | .bind span x :: frames =>
      let closed := Parse.expect eof .semicolon .letStatement s.tokens
      some { s.after closed fun _ => .statements with
        frames
        stmts := s.stmts ++ [.bind span x e] }
    | .print span :: frames =>
      let closed := Parse.expect eof .semicolon .printStatement s.tokens
      some { s.after closed fun _ => .statements with
        frames
        stmts := s.stmts ++ [.print span e] }

/-- The machine gets from one state to another. -/
def Reaches (eof : Span) : State → State → Prop :=
  Relation.ReflTransGen fun s s' => step eof s = some s'

/-! ## Calls -/

/-- A call on top of the given ones is executed: it, or something that it has called, has not
returned. -/
def State.Executes (frames : List Frame) (s : State) : Prop :=
  ∃ top, s.frames = top ++ frames ∧ (top = [] → s.control.isReturned = false)

/-- The machine gets from one state to another while a call on top of the given ones is executed. -/
def Runs (eof : Span) (frames : List Frame) : State → State → Prop :=
  Relation.ReflTransGen fun s s' => s.Executes frames ∧ step eof s = some s'

section Runs

variable {eof : Span} {frames : List Frame} {frame : Frame} {s s' s'' : State}

theorem Runs.reaches (h : Runs eof frames s s') : Reaches eof s s' :=
  Relation.ReflTransGen.mono (fun _ _ hstep => hstep.2) _ _ h

theorem Runs.of_eq (h : s = s') : Runs eof frames s s' := h ▸ Relation.ReflTransGen.refl

/-- A step of the innermost call. -/
theorem Runs.head (hframes : s.frames = frames) (hcontrol : s.control.isReturned = false)
    (hstep : step eof s = some s') (h : Runs eof frames s' s'') : Runs eof frames s s'' :=
  Relation.ReflTransGen.head ⟨⟨[], hframes, fun _ => hcontrol⟩, hstep⟩ h

/-- What a call has called is executed while it waits, and then the result is handed to it. -/
theorem Runs.nested (h : Runs eof (frame :: frames) s s') (hframes : s'.frames = frame :: frames)
    {next : State} (hstep : step eof s' = some next) (h' : Runs eof frames next s'') :
    Runs eof frames s s'' := by
  have hlift : Runs eof frames s s' := by
    refine Relation.ReflTransGen.mono ?_ _ _ h
    rintro t t' ⟨⟨top, htop, -⟩, ht⟩
    exact ⟨⟨top ++ [frame], by simp [htop], by simp⟩, ht⟩
  exact hlift.trans (.head ⟨⟨[frame], hframes, by simp⟩, hstep⟩ h')

end Runs

/-! ## The machine reads what the parser reads -/

/-- The counter when there is some room left. -/
def level (room : Nat) : Int := Parse.maxDepth - room

theorem level_succ (room : Nat) : level (room + 1) + 1 = level room := by
  simp only [level]
  omega

section Steps

variable (eof : Span) (control : Control) (frames : List Frame) (room : Nat) (tokens : Tokens)
  (findings : List Finding) (stmts : List (Stmt String))

/-- With room left the counter is raised and the nested call is made. -/
theorem descend_succ (frame : Frame) (call : Control) (rest : Tokens)
    (next : Expr String → Control) :
    State.descend eof ⟨control, frames, level (room + 1), tokens, findings, stmts⟩ frame call rest
        next
      = ⟨call, frame :: frames, level room, rest, findings, stmts⟩ := by
  have hlt : level (room + 1) < Parse.maxDepth := by
    rw [level]
    omega
  rw [State.descend, if_pos hlt, level_succ]

/-- Without room the expression is given up. -/
theorem descend_zero (frame : Frame) (call : Control) (rest : Tokens)
    (next : Expr String → Control) :
    State.descend eof ⟨control, frames, level 0, tokens, findings, stmts⟩ frame call rest next
      = State.after ⟨control, frames, level 0, tokens, findings, stmts⟩
        (Parse.giveUp eof tokens) next := by
  have hnot : ¬ level 0 < Parse.maxDepth := by
    rw [level]
    omega
  rw [State.descend, if_neg hnot]

/-- An operand that was entered with one level more gives this level back. -/
theorem step_release (e : Expr String) :
    step eof ⟨.release e, frames, level room, tokens, findings, stmts⟩
      = some ⟨.returned e, frames, level (room + 1), tokens, findings, stmts⟩ := by
  have hlevel : level room - 1 = level (room + 1) := by
    rw [← level_succ, Int.add_sub_cancel]
  rw [step, hlevel]

/-- An expression ends where no operator is in view that binds tighter. -/
theorem step_stop (entered depth : Int) {floor : Prec} (left : Expr String)
    (h : Parse.Stops floor tokens) :
    step eof ⟨.fold entered floor left, frames, depth, tokens, findings, stmts⟩
      = some ⟨.restore entered left, frames, depth, tokens, findings, stmts⟩ := by
  cases tokens with
  | nil => rfl
  | cons token rest =>
    cases hop : token.kind.binOp? with
    | none => simp [step, hop]
    | some op => simp [step, hop, h token rfl op hop]

end Steps

/-- Calls return what the parser reads, with the counter as it was: a call of an operand, an
expression that goes on folding, and a call of an expression. -/
theorem reading_returns (eof : Span) :
    (∀ room goal tokens frames findings stmts,
      let parsed := Parse.operand eof room goal tokens
      Runs eof frames ⟨.operand goal, frames, level room, tokens, findings, stmts⟩
        ⟨.returned parsed.value, frames, level room, parsed.rest, findings ++ parsed.findings,
          stmts⟩) ∧
    (∀ room floor left tokens entered frames findings stmts,
      let parsed := Parse.fold eof room floor left tokens
      Runs eof frames ⟨.fold entered floor left, frames, level room, tokens, findings, stmts⟩
        ⟨.returned parsed.value, frames, entered, parsed.rest, findings ++ parsed.findings,
          stmts⟩) ∧
    ∀ room floor goal tokens frames findings stmts,
      let parsed := Parse.expression eof room floor goal tokens
      Runs eof frames ⟨.expression floor goal, frames, level room, tokens, findings, stmts⟩
        ⟨.returned parsed.value, frames, level room, parsed.rest, findings ++ parsed.findings,
          stmts⟩ := by
  refine Parse.reading_induction eof
    (P := fun room goal tokens parsed => ∀ frames findings stmts,
      Runs eof frames ⟨.operand goal, frames, level room, tokens, findings, stmts⟩
        ⟨.returned parsed.value, frames, level room, parsed.rest, findings ++ parsed.findings,
          stmts⟩)
    (Q := fun room floor left tokens parsed => ∀ entered frames findings stmts,
      Runs eof frames ⟨.fold entered floor left, frames, level room, tokens, findings, stmts⟩
        ⟨.returned parsed.value, frames, entered, parsed.rest, findings ++ parsed.findings, stmts⟩)
    (R := fun room floor goal tokens parsed => ∀ frames findings stmts,
      Runs eof frames ⟨.expression floor goal, frames, level room, tokens, findings, stmts⟩
        ⟨.returned parsed.value, frames, level room, parsed.rest, findings ++ parsed.findings,
          stmts⟩)
    ?nothing ?number ?name ?sign ?group ?full ?stop ?operator ?fullFold ?whole
  case nothing =>
    intro room goal tokens hlead frames findings stmts
    refine .head rfl rfl ?_ .refl
    cases tokens with
    | nil => rfl
    | cons token rest => simp [step, hlead token rfl, State.after, Tokens.view, View.ofToken]
  case number | name =>
    intro room goal token v rest hlead frames findings stmts
    exact .head rfl rfl (by simp [step, hlead, State.after]) .refl
  case sign =>
    intro room goal token op rest hlead ih frames findings stmts
    have hcall := ih (.sign token.span op :: frames) findings stmts
    refine .head rfl rfl ?_ (hcall.nested rfl rfl (.head rfl rfl (step_release ..) ?_))
    · simp [step, hlead, descend_succ]
    · exact .of_eq (by simp)
  case group =>
    intro room goal token rest hlead ih frames findings stmts
    have hcall := ih (.group :: frames) findings stmts
    refine .head rfl rfl ?_ (hcall.nested rfl rfl (.head rfl rfl (step_release ..) ?_))
    · simp [step, hlead, descend_succ]
    · exact .of_eq (by simp [State.after])
  case full =>
    intro goal token rest hlead frames findings stmts
    refine .head rfl rfl ?_ .refl
    rcases hlead with hlead | ⟨op, hlead⟩
    · simp [step, hlead, descend_zero, State.after]
    · simp [step, hlead, descend_zero, State.after]
  case stop =>
    intro room floor left tokens hstop entered frames findings stmts
    refine .head rfl rfl (step_stop _ _ _ _ _ _ _ left hstop) (.head rfl rfl rfl ?_)
    exact .of_eq (by simp)
  case operator =>
    intro room floor left token op rest hop hprec ihRight ihFold entered frames findings stmts
    have hcall := ihRight (.right entered floor op left :: frames) findings stmts
    refine .head rfl rfl ?_ (hcall.nested rfl rfl ?_)
    · simp [step, hop, hprec, descend_succ]
    · rw [Parsed.findings_andThen, ← List.append_assoc]
      exact ihFold _ _ entered frames _ stmts
  case fullFold =>
    intro floor left token op rest hop hprec entered frames findings stmts
    let s : State := ⟨.fold entered floor left, frames, level 0, token :: rest, findings, stmts⟩
    have hstep :
        step eof s = some (s.after (Parse.giveUp eof (token :: rest)) (.restore entered)) := by
      simp [s, step, hop, hprec, descend_zero]
    exact .head rfl rfl hstep (.head rfl rfl rfl .refl)
  case whole =>
    intro room floor goal tokens ihOperand ihFold frames findings stmts
    have hcall := ihOperand (.first (level room) floor :: frames) findings stmts
    refine .head rfl rfl rfl (hcall.nested rfl rfl ?_)
    rw [Parse.expression, Parsed.findings_andThen, ← List.append_assoc]
    exact ihFold _ _ (level room) frames _ stmts

theorem level_maxDepth : level Parse.maxDepth = 0 := Int.sub_self _

/-- A whole expression is called with the counter at zero. -/
theorem expression_runs (eof : Span) (goal : Goal) (tokens : Tokens) (frames : List Frame)
    (findings : List Finding) (stmts : List (Stmt String)) :
    let parsed := Parse.expression eof Parse.maxDepth .bottom goal tokens
    Reaches eof ⟨.expression .bottom goal, frames, 0, tokens, findings, stmts⟩
      ⟨.returned parsed.value, frames, 0, parsed.rest, findings ++ parsed.findings, stmts⟩ := by
  have hruns := (reading_returns eof).2.2 Parse.maxDepth .bottom goal tokens frames findings stmts
  rw [level_maxDepth] at hruns
  exact hruns.reaches

/-- The machine reads a statement from its keyword on. -/
theorem statement_runs (eof : Span) {token : Token String} {word : Kind.Keyword} (rest : Tokens)
    (hword : token.kind.keyword? = some word) (findings : List Finding)
    (stmts : List (Stmt String)) :
    let parsed := Parse.stmt eof word token.span rest
    Reaches eof ⟨.statements, [], 0, token :: rest, findings, stmts⟩
      ⟨.statements, [], 0, parsed.rest, findings ++ parsed.findings, stmts ++ [parsed.value]⟩ := by
  cases word with
  | bind =>
    let name := Parse.boundName eof rest
    let begun := name.andThen fun _ => Parse.expect eof .equal .letStatement
    have hcall := expression_runs eof .initializer begun.rest [.bind token.span name.value]
      (findings ++ begun.findings) stmts
    refine Relation.ReflTransGen.head ?_ (hcall.tail ?_)
    · simp [step, hword, State.after, name, begun]
    · simp [step, State.after, name, begun, Parse.stmt, Parse.bindStmt]
  | print =>
    have hcall := expression_runs eof .printStatement rest [.print token.span] findings stmts
    refine Relation.ReflTransGen.head ?_ (hcall.tail ?_)
    · simp [step, hword]
    · simp [step, State.after, Parse.stmt, Parse.printStmt]

/-- The machine reads the statements of a source, and between any two of them the counter is at
zero. -/
theorem statements_run (eof : Span) (tokens : Tokens) (findings : List Finding)
    (stmts : List (Stmt String)) :
    let parsed := Parse.stmts eof tokens
    Reaches eof ⟨.statements, [], 0, tokens, findings, stmts⟩
      ⟨.statements, [], 0, parsed.rest, findings ++ parsed.findings, stmts ++ parsed.value⟩ := by
  refine Parse.stmts_induction eof
    (P := fun tokens parsed => ∀ findings stmts,
      Reaches eof ⟨.statements, [], 0, tokens, findings, stmts⟩
        ⟨.statements, [], 0, parsed.rest, findings ++ parsed.findings, stmts ++ parsed.value⟩)
    ?nil ?keyword ?skip tokens findings stmts
  case nil =>
    intro findings stmts
    rw [List.append_nil, List.append_nil]
    exact .refl
  case keyword =>
    intro token word rest hword ih findings stmts
    have hrest := ih (findings ++ (Parse.stmt eof word token.span rest).findings)
      (stmts ++ [(Parse.stmt eof word token.span rest).value])
    rw [List.append_assoc, List.append_assoc] at hrest
    rw [Parsed.value_andThen, Parsed.findings_andThen, Parsed.findings_andThen, List.append_nil]
    exact (statement_runs eof rest hword findings stmts).trans hrest
  case skip =>
    intro token rest hword ih findings stmts
    have hrest := ih (findings ++ [Parse.unexpected eof .statement .program (token :: rest)]) stmts
    rw [List.append_assoc] at hrest
    refine Relation.ReflTransGen.head ?_ hrest
    simp [step, hword, State.after]

/-! ## The counter -/

/-- The calls that wait when an expression is called with the counter at `depth`, the innermost
first. -/
inductive Awaits : List Frame → Int → Prop
  /-- Nothing waits for a whole expression. -/
  | whole : Awaits [] 0
  | bind (span : Span) (name : String) : Awaits [.bind span name] 0
  | print (span : Span) : Awaits [.print span] 0
  /-- The operators folded so far have raised the counter, once each. -/
  | right {frames : List Frame} {entered depth : Int} (floor : Prec) (op : BinOp)
      (left : Expr String) (outer : Awaits frames entered) (hlt : entered < depth)
      (hle : depth ≤ Parse.maxDepth) : Awaits (.right entered floor op left :: frames) depth
  | sign {frames : List Frame} {entered : Int} (span : Span) (op : UnOp) (floor : Prec)
      (outer : Awaits frames entered) (hlt : entered < Parse.maxDepth) :
      Awaits (.sign span op :: .first entered floor :: frames) (entered + 1)
  | group {frames : List Frame} {entered : Int} (floor : Prec) (outer : Awaits frames entered)
      (hlt : entered < Parse.maxDepth) :
      Awaits (.group :: .first entered floor :: frames) (entered + 1)

/-- The calls that wait when an operand is called: an expression that has just been entered, and
those that wait for it. -/
def AwaitsOperand (frames : List Frame) (depth : Int) : Prop :=
  ∃ floor outer, frames = .first depth floor :: outer ∧ Awaits outer depth

/-- The call that waits is one of an expression. -/
def Frame.isExpression : Frame → Bool
  | .first .. | .right .. => true
  | .sign .. | .group | .bind .. | .print .. => false

theorem Awaits.bounds {frames : List Frame} {depth : Int} (h : Awaits frames depth) :
    0 ≤ depth ∧ depth ≤ Parse.maxDepth := by
  induction h with
  | whole | bind | print => simp
  | right floor op left outer hlt hle ih => exact ⟨by omega, hle⟩
  | sign span op floor outer hlt ih => omega
  | group floor outer hlt ih => omega

/-- Each expression that waits has raised the counter, itself or through its first operand. -/
theorem Awaits.count_le {frames : List Frame} {depth : Int} (h : Awaits frames depth) :
    (frames.countP Frame.isExpression : Int) ≤ depth := by
  induction h with
  | whole | bind | print => exact Int.le_refl 0
  | right floor op left outer hlt hle ih =>
    rw [List.countP_cons_of_pos rfl]
    omega
  | sign span op floor outer hlt ih | group floor outer hlt ih =>
    rw [List.countP_cons_of_neg Bool.false_ne_true, List.countP_cons_of_pos rfl]
    omega

/-- The counter fits what the machine is about to do and the calls that wait. -/
def Fits (control : Control) (frames : List Frame) (depth : Int) : Prop :=
  match control with
  | .statements => frames = [] ∧ depth = 0
  | .expression .. => Awaits frames depth
  | .operand _ => AwaitsOperand frames depth
  | .fold entered .. | .restore entered _ =>
    Awaits frames entered ∧ entered ≤ depth ∧ depth ≤ Parse.maxDepth
  | .release _ => AwaitsOperand frames (depth - 1) ∧ depth ≤ Parse.maxDepth
  | .returned _ => Awaits frames depth ∨ AwaitsOperand frames depth

/-- The counter fits a state. -/
abbrev State.Fits (s : State) : Prop := CallStack.Fits s.control s.frames s.depth

/-- Raising the counter keeps it in line if it fits the nested call, and so does giving up. -/
theorem State.Fits.descend {eof : Span} {s : State} {frame : Frame} {call : Control}
    (rest : Tokens) {next : Expr String → Control}
    (hcall : s.depth < Parse.maxDepth → CallStack.Fits call (frame :: s.frames) (s.depth + 1))
    (hnext : ∀ e, CallStack.Fits (next e) s.frames s.depth) :
    (s.descend eof frame call rest next).Fits := by
  unfold State.descend
  split
  · next hlt => exact hcall hlt
  · exact hnext _

/-- An operand that gives its level back has the counter as it was when the expression around it was
entered. -/
theorem AwaitsOperand.raised {frames : List Frame} {entered : Int} (floor : Prec)
    (h : Awaits frames entered) :
    AwaitsOperand (.first entered floor :: frames) (entered + 1 - 1) := by
  rw [Int.add_sub_cancel]
  exact ⟨floor, frames, rfl, h⟩

section FitsStep

variable {eof : Span} {frames : List Frame} {depth : Int} {tokens : Tokens}
  {findings : List Finding} {stmts : List (Stmt String)} {s' : State}

theorem fits_of_step_statements (h : Fits .statements frames depth)
    (hstep : step eof ⟨.statements, frames, depth, tokens, findings, stmts⟩ = some s') :
    s'.Fits := by
  obtain ⟨rfl, rfl⟩ : frames = [] ∧ depth = 0 := h
  simp only [step] at hstep
  split at hstep
  · cases hstep
  · split at hstep
    · cases hstep
      exact .bind _ _
    · cases hstep
      exact .print _
    · cases hstep
      exact ⟨rfl, rfl⟩

theorem fits_of_step_operand {goal : Goal} (h : AwaitsOperand frames depth)
    (hstep : step eof ⟨.operand goal, frames, depth, tokens, findings, stmts⟩ = some s') :
    s'.Fits := by
  have hreturned : ∀ e, Fits (.returned e) frames depth := fun e => .inr h
  obtain ⟨floor, outer, rfl, houter⟩ := h
  simp only [step] at hstep
  split at hstep
  · cases hstep
    exact hreturned _
  · split at hstep
    · cases hstep
      exact hreturned _
    · cases hstep
      exact hreturned _
    · cases hstep
      exact .descend _ (fun hlt => .sign _ _ floor houter hlt) hreturned
    · cases hstep
      exact .descend _ (fun hlt => .group floor houter hlt) hreturned
    · cases hstep
      exact hreturned _

theorem fits_of_step_fold {entered : Int} {floor : Prec} {left : Expr String}
    (h : Fits (.fold entered floor left) frames depth)
    (hstep : step eof ⟨.fold entered floor left, frames, depth, tokens, findings, stmts⟩
      = some s') :
    s'.Fits := by
  have hrestore : ∀ e, Fits (.restore entered e) frames depth := fun e => h
  obtain ⟨houter, hle, hmax⟩ : Awaits frames entered ∧ entered ≤ depth ∧ depth ≤ Parse.maxDepth := h
  simp only [step] at hstep
  split at hstep
  · cases hstep
    exact hrestore _
  · split at hstep
    · cases hstep
      exact hrestore _
    · split at hstep
      · cases hstep
        refine .descend _ (fun hlt => .right floor _ left houter ?_ hlt) hrestore
        exact Int.lt_add_one_of_le hle
      · cases hstep
        exact hrestore _

/-- What is handed a result fits the counter that the call has left. -/
theorem fits_of_step_returned {e : Expr String} (h : Fits (.returned e) frames depth)
    (hstep : step eof ⟨.returned e, frames, depth, tokens, findings, stmts⟩ = some s') :
    s'.Fits := by
  have hcases : Awaits frames depth ∨ AwaitsOperand frames depth := h
  rcases hcases with hwhole | ⟨floor, outer, rfl, houter⟩
  · cases hwhole with
    | whole => cases hstep
    | bind span x | print span =>
      cases hstep
      exact ⟨rfl, rfl⟩
    | right floor op left outer hlt hle =>
      cases hstep
      exact ⟨outer, Int.le_of_lt hlt, hle⟩
    | sign span op floor outer hlt | group floor outer hlt =>
      simp only [step, Option.some.injEq] at hstep
      subst hstep
      exact ⟨.raised floor outer, hlt⟩
  · cases hstep
    exact ⟨houter, Int.le_refl depth, houter.bounds.2⟩

end FitsStep

/-- Each step keeps the counter in line with the calls that wait. -/
theorem State.Fits.step {eof : Span} {s s' : State} (h : s.Fits)
    (hstep : CallStack.step eof s = some s') : s'.Fits := by
  obtain ⟨control, frames, depth, tokens, findings, stmts⟩ := s
  cases control with
  | statements => exact fits_of_step_statements h hstep
  | expression floor goal =>
    cases hstep
    exact ⟨floor, frames, rfl, h⟩
  | operand goal => exact fits_of_step_operand h hstep
  | fold entered floor left => exact fits_of_step_fold h hstep
  | restore entered e =>
    cases hstep
    exact .inl h.1
  | release e =>
    cases hstep
    exact .inr h.1
  | returned e => exact fits_of_step_returned h hstep

/-- A run keeps the counter in line with the calls that wait. -/
theorem State.Fits.reaches {eof : Span} {s s' : State} (h : s.Fits) (hreaches : Reaches eof s s') :
    s'.Fits := by
  induction hreaches with
  | refl => exact h
  | tail _ hstep ih => exact ih.step hstep

/-! ## What holds at every step -/

/-- How many of the expressions that have been called and have not returned do not wait: one, if an
expression is what the machine is about to go on with. -/
def Control.active : Control → Nat
  | .expression .. | .fold .. | .restore .. => 1
  | .statements | .operand _ | .release _ | .returned _ => 0

/-- The number of expressions that have been called and have not returned. -/
def State.active (s : State) : Nat := s.frames.countP Frame.isExpression + s.control.active

/-- The call that the machine is about to make returns, and leaves the counter and the calls that
wait as they are. -/
def State.Returns (eof : Span) (s : State) : Prop :=
  ∃ s' e, Runs eof s.frames s s' ∧ s'.control = .returned e ∧ s'.frames = s.frames ∧
    s'.depth = s.depth

/-- What holds of the counter in every state of the machine. -/
structure State.Balanced (eof : Span) (s : State) : Prop where
  nonneg : 0 ≤ s.depth
  le_maxDepth : s.depth ≤ Parse.maxDepth
  /-- The counter is never lowered below zero. -/
  one_le_of_release : ∀ e, s.control = .release e → 1 ≤ s.depth
  /-- Between two statements the counter is at zero. -/
  eq_zero_of_statements : s.control = .statements → s.depth = 0
  active_le : s.active ≤ Parse.maxDepth + 1
  expression_returns : ∀ floor goal, s.control = .expression floor goal → s.Returns eof
  operand_returns : ∀ goal, s.control = .operand goal → s.Returns eof

theorem AwaitsOperand.bounds {frames : List Frame} {depth : Int} (h : AwaitsOperand frames depth) :
    0 ≤ depth ∧ depth ≤ Parse.maxDepth := by
  obtain ⟨_, _, _, h⟩ := h
  exact h.bounds

/-- The expression that waits for an operand has not raised the counter yet. -/
theorem AwaitsOperand.count_le {frames : List Frame} {depth : Int}
    (h : AwaitsOperand frames depth) : (frames.countP Frame.isExpression : Int) ≤ depth + 1 := by
  obtain ⟨floor, outer, rfl, h⟩ := h
  have := h.count_le
  rw [List.countP_cons_of_pos rfl]
  omega

section Fits

variable {control : Control} {frames : List Frame} {depth : Int}

theorem Fits.bounds (h : Fits control frames depth) : 0 ≤ depth ∧ depth ≤ Parse.maxDepth := by
  cases control with
  | statements =>
    obtain ⟨-, rfl⟩ : frames = [] ∧ depth = 0 := h
    exact ⟨Int.le_refl 0, Int.natCast_nonneg _⟩
  | expression floor goal => exact Awaits.bounds h
  | operand goal => exact AwaitsOperand.bounds h
  | fold entered _ _ | restore entered _ =>
    obtain ⟨houter, hle, hmax⟩ := h
    exact ⟨Int.le_trans houter.bounds.1 hle, hmax⟩
  | release e =>
    obtain ⟨houter, hmax⟩ := h
    have hnonneg := houter.bounds.1
    exact ⟨by omega, hmax⟩
  | returned e => exact h.elim Awaits.bounds AwaitsOperand.bounds

/-- All expressions that have been called and have not returned, but for the innermost, have raised
the counter. -/
theorem Fits.active_le (h : Fits control frames depth) :
    ((frames.countP Frame.isExpression + control.active : Nat) : Int) ≤ depth + 1 := by
  cases control with
  | statements =>
    obtain ⟨rfl, rfl⟩ : frames = [] ∧ depth = 0 := h
    exact Int.zero_le_ofNat 1
  | expression floor goal => exact Int.add_le_add_right (Awaits.count_le h) 1
  | operand goal => exact AwaitsOperand.count_le h
  | fold entered _ _ | restore entered _ =>
    obtain ⟨houter, hle, -⟩ := h
    exact Int.add_le_add_right (Int.le_trans houter.count_le hle) 1
  | release e =>
    obtain ⟨houter, -⟩ := h
    have hcount := houter.count_le
    simp only [Control.active]
    omega
  | returned e =>
    rcases h with h | h
    · exact Int.le_trans h.count_le (Int.le_of_lt (Int.lt_succ depth))
    · exact h.count_le

/-- The level that an operand gives back is one that it has used up. -/
theorem Fits.one_le_of_release {e : Expr String} (h : Fits (.release e) frames depth) :
    1 ≤ depth := by
  have hnonneg := h.1.bounds.1
  omega

end Fits

/-- Some room is left wherever the counter may be. -/
theorem exists_level_eq {depth : Int} (h : 0 ≤ depth ∧ depth ≤ Parse.maxDepth) :
    ∃ room, level room = depth :=
  ⟨(Parse.maxDepth - depth).toNat, by rw [level]; omega⟩

theorem State.Fits.balanced {s : State} (eof : Span) (h : s.Fits) : s.Balanced eof := by
  have hbounds := CallStack.Fits.bounds h
  obtain ⟨room, hroom⟩ := exists_level_eq hbounds
  obtain ⟨control, frames, depth, tokens, findings, stmts⟩ := s
  refine ⟨hbounds.1, hbounds.2, ?release, ?statements, ?active, ?expression, ?operand⟩
  case release =>
    rintro e rfl
    exact CallStack.Fits.one_le_of_release h
  case statements =>
    rintro rfl
    exact h.2
  case active =>
    have hactive : (State.active ⟨control, frames, depth, tokens, findings, stmts⟩ : Int)
        ≤ depth + 1 := CallStack.Fits.active_le h
    have hmax : depth ≤ Parse.maxDepth := hbounds.2
    omega
  case expression =>
    rintro floor goal rfl
    subst hroom
    exact ⟨_, _, (reading_returns eof).2.2 room floor goal tokens frames findings stmts, rfl, rfl,
      rfl⟩
  case operand =>
    rintro goal rfl
    subst hroom
    exact ⟨_, _, (reading_returns eof).1 room goal tokens frames findings stmts, rfl, rfl, rfl⟩

/-- The machine gets to a state in which nothing is left to do. -/
def Ends (eof : Span) (s s' : State) : Prop := Reaches eof s s' ∧ step eof s' = none

end CallStack

namespace Parser

open CallStack

/-- The machine before it reads a program: nothing waits, and the counter is at zero. -/
def programStart (parser : Parser) : State := ⟨.statements, [], 0, parser.tokens, [], []⟩

/-- The machine before it reads a single expression. -/
def expressionStart (parser : Parser) : State :=
  ⟨.expression .bottom .expression, [], 0, parser.tokens, [], []⟩

/-- The machine reads the program or the expression that the parser reads.  At every step on the way
the counter is between zero and the limit, it is lowered only where it is not zero, it is zero
between statements, every call leaves it as it was, and no more expressions wait for one another
than the limit and one. -/
theorem counter_balanced (parser : Parser) :
    let program := Parse.program parser.path parser.eof parser.tokens
    let expression :=
      Parse.expression parser.eof Parse.maxDepth .bottom .expression parser.tokens
    Ends parser.eof parser.programStart
      ⟨.statements, [], 0, program.rest, program.findings, parser.program.1.stmts⟩ ∧
    Ends parser.eof parser.expressionStart
      ⟨.returned parser.expression.1, [], 0, expression.rest, expression.findings, []⟩ ∧
    ∀ s, Reaches parser.eof parser.programStart s ∨ Reaches parser.eof parser.expressionStart s →
      s.Balanced parser.eof := by
  intro program expression
  have hrest : program.rest = [] := Parse.program_rest parser.path parser.eof parser.tokens
  refine ⟨⟨?program, by rw [hrest]; rfl⟩, ⟨?expression, rfl⟩, ?balanced⟩
  case program => exact statements_run parser.eof parser.tokens [] []
  case expression => exact expression_runs parser.eof .expression parser.tokens [] [] []
  case balanced =>
    intro s hreaches
    have hprogram : parser.programStart.Fits := ⟨rfl, rfl⟩
    have hexpression : parser.expressionStart.Fits := .whole
    have hfits : s.Fits := hreaches.elim hprogram.reaches hexpression.reaches
    exact hfits.balanced parser.eof

end Parser

end LetCalc
