import LetCalc.Proofs.Machine.Meaning
import Mathlib.Data.List.Perm.Basic

/-!
# The order of evaluation

Evaluating an expression gives zero to those of its variables that have no value, and changes
nothing else.  A variable without a value counts as zero anyway, so it does not matter which operand
of an operation is evaluated first, and an expression that is evaluated once more finds everything
as it was left.

Statements are executed in order, but two of them can be exchanged if neither gives a value to a
variable of the other and not both print.  They may well meet the same variables without a value;
whichever comes first binds them to zero, and what the other one reads is zero all the same.

Main results:

- Definition `Env.Filled`: some variables are given zero if they have no value.
- Definition `Expr.Evaluates`: evaluation with the operands of each operation in either order.
- Theorems `Expr.Evaluates.filled` and `Expr.Evaluates.value_eq`: what evaluation leaves behind, and
  the value that it gives.
- Theorem `Machine.calculate_fills_in_zeros`: what evaluating an expression does to a machine.
- Definition `Stmt.Independent`: statements that can be exchanged.
- Theorem `Program.execute_exchange`: programs in which two such statements are exchanged do the
  same.
-/

namespace LetCalc

section Evaluation

variable {ι : Type} [DecidableEq ι] [Hashable ι]

/-! ## Variables without a value -/

namespace Env

/-- The values of all variables as numbers; a variable without a value counts as zero. -/
def numbers (env : Env ι) (x : ι) : Int := ((env.get? x).getD 0).toNat

/-- The second environment is the first one in which the variables `xs` have been given zero, where
they had no value. -/
def Filled (env env' : Env ι) (xs : List ι) : Prop :=
  ∀ x, env'.get? x = match env.get? x with
    | some v => some v
    | none => if x ∈ xs then some 0 else none

namespace Filled

variable {env mid env' : Env ι} {xs ys : List ι}

theorem refl (env : Env ι) : env.Filled env [] := by
  intro x
  cases env.get? x with
  | none => rfl
  | some v => rfl

theorem trans (h : env.Filled mid xs) (h' : mid.Filled env' ys) : env.Filled env' (xs ++ ys) := by
  intro x
  rw [h' x, h x]
  cases env.get? x with
  | some v => rfl
  | none => by_cases hx : x ∈ xs <;> simp [hx]

/-- The order in which variables are given zero makes no difference. -/
theorem congr (h : env.Filled env' xs) (hmem : ∀ x, x ∈ xs ↔ x ∈ ys) : env.Filled env' ys := by
  intro x
  rw [h x]
  simp only [hmem x]

/-- Reading a variable gives it zero if it has no value. -/
theorem read (env : Env ι) (x : ι) : env.Filled (env.read x).2 [x] := by
  intro y
  rw [get?_read]
  by_cases hxy : x = y
  · subst hxy
    cases env.get? x <;> simp
  · have hmem : y ∉ [x] := by simpa using Ne.symm hxy
    rw [if_neg hxy, if_neg hmem]
    cases env.get? y <;> rfl

/-- Zeros for variables without a value change no number. -/
theorem numbers_eq (h : env.Filled env' xs) : env'.numbers = env.numbers := by
  ext x
  rw [numbers, numbers, h x]
  cases env.get? x with
  | some v => rfl
  | none => by_cases hx : x ∈ xs <;> simp [hx]

theorem isSome (h : env.Filled env' xs) {x : ι} (hx : x ∈ xs) : (env'.get? x).isSome = true := by
  rw [h x, if_pos hx]
  cases env.get? x <;> rfl

/-- What is given zero determines all values. -/
theorem get?_eq {env'' : Env ι} (h : env.Filled env' xs) (h' : env.Filled env'' xs) (x : ι) :
    env'.get? x = env''.get? x := by
  rw [h x, h' x]

end Filled

end Env

/-! ## Operands in either order -/

namespace Expr

/-- The expression can be evaluated to `v` from the first store, and leaves the second one behind,
if the operands of each operation may be evaluated in either order. -/
inductive Evaluates : Expr ι → Store ι → UInt64 → Store ι → Prop where
  | lit (span : Span) (v : UInt64) (store : Store ι) : Evaluates (.lit span v) store v store
  | var (span : Span) (x : ι) (store : Store ι) :
      Evaluates (.var span x) store (store.read x).1 (store.read x).2
  | hole (span : Span) (store : Store ι) : Evaluates (.hole span) store 0 store
  | unary {span : Span} {op : UnOp} {e : Expr ι} {store store' : Store ι} {v : UInt64}
      (operand : Evaluates e store v store') :
      Evaluates (.unary span op e) store (op.apply v) store'
  | leftFirst {span : Span} {op : BinOp} {l r : Expr ι} {store mid store' : Store ι} {v w : UInt64}
      (left : Evaluates l store v mid) (right : Evaluates r mid w store') :
      Evaluates (.binary span op l r) store (op.apply v w) store'
  | rightFirst {span : Span} {op : BinOp} {l r : Expr ι} {store mid store' : Store ι} {v w : UInt64}
      (right : Evaluates r store w mid) (left : Evaluates l mid v store') :
      Evaluates (.binary span op l r) store (op.apply v w) store'

namespace Evaluates

variable {e : Expr ι} {store store' : Store ι} {v : UInt64}

/-- Evaluation gives zero to the variables of the expression that have no value. -/
theorem filled (h : e.Evaluates store v store') : store.env.Filled store'.env e.vars := by
  induction h with
  | lit | hole => exact Env.Filled.refl _
  | var span x store =>
    rw [Store.env_read]
    exact Env.Filled.read store.env x
  | unary _ ih => exact ih
  | leftFirst _ _ ihl ihr => exact ihl.trans ihr
  | rightFirst _ _ ihr ihl =>
    apply (ihr.trans ihl).congr
    intro x
    rw [vars, List.mem_append, List.mem_append, or_comm]

/-- Evaluation gives the value of the expression. -/
theorem value_eq (h : e.Evaluates store v store') :
    (v.toNat : Int) = e.value store.env.numbers := by
  induction h with
  | lit | hole => rfl
  | var span x store =>
    rw [Store.value_read, Env.value_read]
    rfl
  | @unary _ op _ _ _ _ _ ih =>
    rw [value, ← ih]
    exact op.toNat_apply _
  | @leftFirst _ op _ _ _ _ _ _ _ left _ ihl ihr =>
    -- The operand that comes second sees the same numbers.
    rw [left.filled.numbers_eq] at ihr
    rw [value, ← ihl, ← ihr]
    exact op.toNat_apply _ _
  | @rightFirst _ op _ _ _ _ _ _ _ right _ ihr ihl =>
    rw [right.filled.numbers_eq] at ihl
    rw [value, ← ihl, ← ihr]
    exact op.toNat_apply _ _

/-- All ways to evaluate an expression give one value, and leave the same values behind. -/
theorem unique {w : UInt64} {store'' : Store ι} (h : e.Evaluates store v store')
    (h' : e.Evaluates store w store'') :
    v = w ∧ ∀ x, store'.env.get? x = store''.env.get? x := by
  have hvalue : (v.toNat : Int) = w.toNat := h.value_eq.trans h'.value_eq.symm
  exact ⟨UInt64.toNat_inj.1 (Int.ofNat.inj hvalue), h.filled.get?_eq h'.filled⟩

end Evaluates

/-- Evaluation from left to right is one of the ways to evaluate an expression. -/
theorem evaluates_eval (e : Expr ι) (store : Store ι) :
    e.Evaluates store (e.eval store).1 (e.eval store).2 := by
  induction e generalizing store with
  | lit span v => exact .lit span v store
  | var span x => exact .var span x store
  | hole span => exact .hole span store
  | unary span op e ih => exact .unary (ih store)
  | binary span op l r ihl ihr => exact .leftFirst (ihl store) (ihr (l.eval store).2)

/-- An expression whose variables all have values changes nothing. -/
theorem eval_of_isSome (e : Expr ι) {store : Store ι}
    (h : ∀ x ∈ e.vars, (store.env.get? x).isSome = true) : (e.eval store).2 = store := by
  induction e with
  | lit | hole => rfl
  | var span x =>
    have hx : (store.env.get? x).isSome = true := h x (List.mem_singleton.2 rfl)
    obtain ⟨v, hv⟩ := Option.isSome_iff_exists.1 hx
    simp only [eval, Store.read, hv]
  | unary span op e ih => exact ih h
  | binary span op l r ihl ihr =>
    have hl := ihl fun x hx => h x (List.mem_append_left _ hx)
    have hr := ihr fun x hx => h x (List.mem_append_right _ hx)
    simp only [eval]
    rw [hl, hr]

/-- An expression that is evaluated a second time has the same value and changes nothing. -/
theorem eval_eval (e : Expr ι) (store : Store ι) : e.eval (e.eval store).2 = e.eval store := by
  have hfilled := (e.evaluates_eval store).filled
  have hstore : (e.eval (e.eval store).2).2 = (e.eval store).2 :=
    e.eval_of_isSome fun _ hx => hfilled.isSome hx
  have hvalue : ((e.eval (e.eval store).2).1.toNat : Int) = (e.eval store).1.toNat := by
    rw [(e.evaluates_eval store).value_eq, (e.evaluates_eval _).value_eq, hfilled.numbers_eq]
  exact Prod.ext (UInt64.toNat_inj.1 (Int.ofNat.inj hvalue)) hstore

end Expr

/-- Evaluating an expression only fills in zeros.  It gives the value of the expression under the
values of the variables, where a variable without a value counts as zero, and prints nothing.  Each
variable of the expression that had no value has zero afterwards, and all others are as they were.
It is one of the ways to evaluate the expression with the operands of each operation in either
order, all of which give the same value and leave the same values behind.  A second evaluation gives
the same value and changes nothing at all. -/
theorem Machine.calculate_fills_in_zeros (machine : Machine ι) (e : Expr ι) :
    let result := machine.calculate e
    let before := machine.store.env
    let after := result.2.store.env
    (result.1.toNat : Int) = e.value before.numbers ∧
      result.2.sink = machine.sink ∧
      before.Filled after e.vars ∧
      e.Evaluates machine.store result.1 result.2.store ∧
      (∀ v store, e.Evaluates machine.store v store →
        v = result.1 ∧ ∀ x, store.env.get? x = after.get? x) ∧
      result.2.calculate e = result := by
  intro result before after
  have heval : e.Evaluates machine.store result.1 result.2.store := e.evaluates_eval machine.store
  refine ⟨heval.value_eq, rfl, heval.filled, heval, ?_, ?_⟩
  · intro v store hother
    exact hother.unique heval
  · have hagain := e.eval_eval machine.store
    simp only [result, calculate, hagain]

end Evaluation

/-! ## Statements that can be exchanged -/

section Independence

variable {ι : Type}

namespace Stmt

/-- Whether the statement prints. -/
def isPrint : Stmt ι → Bool
  | .bind .. => false
  | .print .. => true

/-- The variable to which the statement gives a value. -/
def target? : Stmt ι → Option ι
  | .bind _ x _ => some x
  | .print .. => none

/-- At most one of the statements prints, and neither gives a value to a variable that occurs in the
expression of the other, or to which the other gives a value. -/
structure Independent (a b : Stmt ι) : Prop where
  isPrint : ¬ (a.isPrint = true ∧ b.isPrint = true)
  left : ∀ x ∈ a.target?, x ∉ b.expr.vars ∧ b.target? ≠ some x
  right : ∀ x ∈ b.target?, x ∉ a.expr.vars ∧ a.target? ≠ some x

instance [DecidableEq ι] (a b : Stmt ι) : Decidable (a.Independent b) :=
  decidable_of_iff
    (¬ (a.isPrint = true ∧ b.isPrint = true) ∧
      (∀ x ∈ a.target?, x ∉ b.expr.vars ∧ b.target? ≠ some x) ∧
      ∀ x ∈ b.target?, x ∉ a.expr.vars ∧ a.target? ≠ some x)
    ⟨fun ⟨hprint, hleft, hright⟩ => ⟨hprint, hleft, hright⟩, fun h => ⟨h.isPrint, h.left, h.right⟩⟩

end Stmt

variable [DecidableEq ι]

/-- The value of an expression does not depend on a variable that does not occur in it. -/
theorem Expr.value_update (e : Expr ι) {x : ι} (h : x ∉ e.vars) (σ : ι → Int) (n : Int) :
    e.value (Function.update σ x n) = e.value σ := by
  induction e with
  | lit | hole => rfl
  | var span y =>
    have hne : y ≠ x := fun hy => h (List.mem_singleton.2 hy.symm)
    exact Function.update_of_ne hne n σ
  | unary span op e ih => rw [value, value, ih h]
  | binary span op l r ihl ihr =>
    rw [vars, List.mem_append, not_or] at h
    rw [value, value, ihl h.1, ihr h.2]

namespace Stmt.Independent

variable {a b : Stmt ι}

/-- Independent statements leave the same values behind in either order. -/
theorem after_comm (h : a.Independent b) (σ : ι → Int) :
    b.after (a.after σ) = a.after (b.after σ) := by
  cases a with
  | print => rfl
  | bind s x e =>
    cases b with
    | print => rfl
    | bind s' y e' =>
      obtain ⟨hx, hxy⟩ := h.left x rfl
      obtain ⟨hy, -⟩ := h.right y rfl
      have hne : x ≠ y := fun he => hxy (congrArg some he.symm)
      have hx' : x ∉ e'.vars := hx
      have hy' : y ∉ e.vars := hy
      simp only [after]
      rw [e'.value_update hx', e.value_update hy', Function.update_comm hne]

/-- Independent statements print the same in either order. -/
theorem printed_comm (h : a.Independent b) (σ : ι → Int) :
    a.printed σ ++ b.printed (a.after σ) = b.printed σ ++ a.printed (b.after σ) := by
  cases a with
  | bind s x e =>
    cases b with
    | bind => rfl
    | print s' e' =>
      have hx : x ∉ e'.vars := (h.left x rfl).1
      simp only [printed, after, e'.value_update hx]
      rfl
  | print s e =>
    cases b with
    | print => exact absurd ⟨rfl, rfl⟩ h.isPrint
    | bind s' y e' =>
      have hy : y ∉ e.vars := (h.right y rfl).1
      simp only [printed, after, e.value_update hy]
      rfl

variable (before after : List (Stmt ι))

theorem valuesAfter_eq (h : a.Independent b) (σ : ι → Int) :
    valuesAfter σ (before ++ a :: b :: after) = valuesAfter σ (before ++ b :: a :: after) := by
  simp only [valuesAfter, List.foldl_append, List.foldl_cons, h.after_comm]

theorem printedBy_eq (h : a.Independent b) (σ : ι → Int) :
    printedBy σ (before ++ a :: b :: after) = printedBy σ (before ++ b :: a :: after) := by
  induction before generalizing σ with
  | nil =>
    simp only [List.nil_append, printedBy]
    rw [← List.append_assoc, ← List.append_assoc, h.printed_comm, h.after_comm]
  | cons stmt before ih => exact congrArg (stmt.printed σ ++ ·) (ih _)

end Stmt.Independent

end Independence

/-! ## Exchanging statements -/

section Exchange

variable {ι : Type} [DecidableEq ι] [Hashable ι]

namespace Env

/-- Any environment goes along with its own numbers, and the variables that have a value are met. -/
theorem tracks_numbers (env : Env ι) : env.Tracks env.numbers env.values.keys := by
  constructor
  · intro x
    rfl
  · intro x
    rw [Std.HashMap.mem_keys, Std.HashMap.mem_iff_isSome_getElem?]
    rfl

/-- Environments that go along with the same values and have met the same variables have the same
bindings. -/
theorem Tracks.get?_eq {env env' : Env ι} {σ : ι → Int} {met met' : List ι} (h : env.Tracks σ met)
    (h' : env'.Tracks σ met') (hmet : ∀ x, x ∈ met ↔ x ∈ met') (x : ι) :
    env.get? x = env'.get? x := by
  ext v
  rw [h.get?_eq_some_iff, h'.get?_eq_some_iff, hmet x]

/-- Environments with the same bindings are found to be the same. -/
theorem same_of_get?_eq {env env' : Env ι} (h : ∀ x, env.get? x = env'.get? x) :
    env.same env' = true := by
  have hsize : env.size = env'.size := (Std.HashMap.Equiv.of_forall_getElem?_eq h).size_eq
  have hall : ∀ b ∈ env.values.toList, env'.get? b.1 = some b.2 := by
    rintro ⟨x, v⟩ hb
    exact (h x).symm.trans (Std.HashMap.mem_toList_iff_getElem?_eq_some.1 hb)
  simpa [same, hsize] using fun x v => hall (x, v)

end Env

/-- On any machine whose output takes everything, independent statements can be exchanged. -/
theorem Machine.run_exchange (machine : Machine ι) (hroom : machine.sink.room = none)
    (before after : List (Stmt ι)) {a b : Stmt ι} (h : a.Independent b) :
    let run := machine.run (before ++ a :: b :: after)
    let exchanged := machine.run (before ++ b :: a :: after)
    run.1 = none ∧ exchanged.1 = none ∧
      exchanged.2.sink.written = run.2.sink.written ∧
      ∀ x, exchanged.2.store.env.get? x = run.2.store.env.get? x := by
  intro run exchanged
  have htracks : machine.Tracks machine.store.env.numbers machine.store.env.values.keys
      machine.sink.written := ⟨machine.store.env.tracks_numbers, hroom, rfl⟩
  obtain ⟨hrefusal, hrun⟩ := run_tracks (before ++ a :: b :: after) htracks
  obtain ⟨hrefusal', hexchanged⟩ := run_tracks (before ++ b :: a :: after) htracks
  rw [← h.valuesAfter_eq, ← h.printedBy_eq] at hexchanged
  have hperm : (before ++ b :: a :: after).Perm (before ++ a :: b :: after) :=
    (List.Perm.swap a b after).append_left before
  refine ⟨hrefusal, hrefusal', hexchanged.written.trans hrun.written.symm, ?_⟩
  apply hexchanged.env.get?_eq hrun.env
  intro x
  rw [List.mem_append, List.mem_append, (hperm.flatMap_right Stmt.names).mem_iff]

/-- Independent statements that stand next to each other can be exchanged: with an output that takes
everything, neither program is refused, both print the same, and the same variables have the same
values in the end. -/
theorem Program.execute_exchange (path : Option String) (span : Span)
    (before after : List (Stmt ι)) {a b : Stmt ι} (h : a.Independent b) {sink : Sink}
    (hsink : sink.room = none) :
    let run := execute ⟨path, span, before ++ a :: b :: after⟩ sink
    let exchanged := execute ⟨path, span, before ++ b :: a :: after⟩ sink
    run.1 = none ∧ exchanged.1 = none ∧
      exchanged.2.sink.written = run.2.sink.written ∧
      (∀ x, exchanged.2.store.env.get? x = run.2.store.env.get? x) ∧
      exchanged.2.store.env.same run.2.store.env = true := by
  intro run exchanged
  obtain ⟨hrefusal, hrefusal', hwritten, hget⟩ :=
    (Machine.start sink).run_exchange hsink before after h
  exact ⟨hrefusal, hrefusal', hwritten, hget, Env.same_of_get?_eq hget⟩

end Exchange

/-- A statement that binds a variable and one that prints, both of which meet the same variable
without a value, between statements that read what they bind. -/
theorem Program.execute_exchange_shared :
    let here := Span.single .start
    let a : Stmt Nat := .bind here 0 (.binary here .sub (.var here 2) (.lit here 1))
    let b : Stmt Nat := .print here (.binary here .div (.var here 2) (.var here 3))
    let front : List (Stmt Nat) := [.print here (.var here 0)]
    let back : List (Stmt Nat) := [.bind here 2 (.var here 0), .print here (.var here 2)]
    a.Independent b ∧ Sink.unlimited.room = none ∧
      let run := execute ⟨none, here, front ++ a :: b :: back⟩ .unlimited
      let exchanged := execute ⟨none, here, front ++ b :: a :: back⟩ .unlimited
      run.1 = none ∧ exchanged.1 = none ∧
        exchanged.2.sink.written = run.2.sink.written ∧
        (∀ x, exchanged.2.store.env.get? x = run.2.store.env.get? x) ∧
        exchanged.2.store.env.same run.2.store.env = true := by
  intro here a b front back
  have hindependent : a.Independent b := by decide
  exact ⟨hindependent, rfl, execute_exchange none here front back hindependent rfl⟩

end LetCalc
