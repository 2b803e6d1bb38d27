import LetCalc.Proofs.Machine.CutOff
import Mathlib.Data.List.Nodup

/-!
# Notes of unbound variables

A run notes each variable that it reads before the variable has a value, and gives it zero.  So
which variables are noted can be told from the statements alone: a statement reads the variables of
its expression from left to right, and then it may bind one.  The variables that are noted are those
that are read at some time at which they have not been bound, each of them once.

Main results:

- Definition `Stmt.accesses`: what a statement does with variables, in order.
- Definition `ReadUnbound`: a variable is read before it is bound.
- Theorems `Store.Reflects.read` and `Store.Reflects.bind`: what one access notes.
- Theorem `Machine.run_reflects`: what a run notes.
-/

namespace LetCalc

/-! ## Accesses -/

/-- Something that is done with a variable. -/
inductive Access (ι : Type) where
  | read (name : ι)
  | bind (name : ι)
deriving DecidableEq, Repr

section Accesses

variable {ι : Type}

/-- The variable. -/
def Access.name : Access ι → ι
  | read x | bind x => x

/-- What a statement does with variables, in order. -/
def Stmt.accesses : Stmt ι → List (Access ι)
  | .bind _ x e => e.vars.map .read ++ [.bind x]
  | .print _ e => e.vars.map .read

/-- The variable is read at some time before which it has not been bound. -/
def ReadUnbound (accesses : List (Access ι)) (x : ι) : Prop :=
  ∃ before after, accesses = before ++ .read x :: after ∧ .bind x ∉ before

variable {accesses : List (Access ι)} {x y : ι}

theorem ReadUnbound.name_mem (h : ReadUnbound accesses x) : x ∈ accesses.map Access.name := by
  rcases h with ⟨before, after, rfl, -⟩
  simp [Access.name]

/-- A variable that is met but not bound is read. -/
theorem readUnbound_of_bind_notMem (hmem : x ∈ accesses.map Access.name)
    (hbind : .bind x ∉ accesses) : ReadUnbound accesses x := by
  rcases List.mem_map.1 hmem with ⟨access, haccess, rfl⟩
  cases access with
  | bind x => exact absurd haccess hbind
  | read x =>
    rcases List.append_of_mem haccess with ⟨before, after, rfl⟩
    exact ⟨before, after, rfl, fun h => hbind (List.mem_append_left _ h)⟩

/-- One more access makes a difference only if it reads a variable that has not been bound. -/
theorem readUnbound_concat (access : Access ι) :
    ReadUnbound (accesses ++ [access]) x ↔
      ReadUnbound accesses x ∨ access = .read x ∧ .bind x ∉ accesses := by
  constructor
  · rintro ⟨before, after, heq, hbind⟩
    rcases List.eq_nil_or_concat after with rfl | ⟨more, last, rfl⟩
    · rcases List.append_inj' heq rfl with ⟨rfl, hlast⟩
      exact .inr ⟨List.singleton_inj.1 hlast, hbind⟩
    · rw [List.concat_eq_append, ← List.cons_append, ← List.append_assoc] at heq
      rcases List.append_inj' heq rfl with ⟨rfl, -⟩
      exact .inl ⟨before, more, rfl, hbind⟩
  · rintro (⟨before, after, rfl, hbind⟩ | ⟨rfl, hbind⟩)
    · exact ⟨before, after ++ [access], by simp, hbind⟩
    · exact ⟨accesses, [], rfl, hbind⟩

end Accesses

/-! ## What is noted -/

variable {ι : Type} [DecidableEq ι] [Hashable ι]

/-- The variable of a note that it was read before it had a value. -/
def Note.unbound? : Note ι → Option ι
  | .unbound x => some x
  | .bound .. => none

/-- The variables that were read before they had a value, in the order of these reads. -/
def Store.unbound (store : Store ι) : List ι := store.notes.toList.filterMap Note.unbound?

/-- The store reflects what was done with variables: those that were met have a value, and those
that were read before they were bound are noted, each of them once. -/
structure Store.Reflects (store : Store ι) (accesses : List (Access ι)) : Prop where
  isSome : ∀ x, (store.env.get? x).isSome = true ↔ x ∈ accesses.map Access.name
  nodup : store.unbound.Nodup
  mem_unbound : ∀ x, x ∈ store.unbound ↔ ReadUnbound accesses x

namespace Store.Reflects

variable {store : Store ι} {accesses : List (Access ι)}

theorem empty : (Store.empty : Store ι).Reflects [] := by
  refine ⟨?_, List.nodup_nil, ?_⟩
  · intro x
    simp [Store.empty]
  · intro x
    constructor
    · intro h
      cases h
    · intro h
      exact absurd h.name_mem List.not_mem_nil

/-- A variable has a value once it was met, whether it was read or bound. -/
theorem isSome_concat (h : store.Reflects accesses) {access : Access ι} {env : Env ι} {v : UInt64}
    (henv : ∀ y, env.get? y = if access.name = y then some v else store.env.get? y) (y : ι) :
    (env.get? y).isSome = true ↔ y ∈ (accesses ++ [access]).map Access.name := by
  rw [henv, List.map_append, List.mem_append, ← h.isSome y, List.map_singleton, List.mem_singleton]
  by_cases hname : access.name = y
  · simp [hname]
  · simp [hname, Ne.symm hname]

/-- A variable that is read is noted if it has not been met. -/
theorem read (h : store.Reflects accesses) (x : ι) :
    (store.read x).2.Reflects (accesses ++ [.read x]) := by
  have henv : ∀ y, (store.read x).2.env.get? y
      = if (Access.read x).name = y then some ((store.env.get? x).getD 0)
        else store.env.get? y := by
    intro y
    rw [Store.env_read]
    exact Env.get?_read store.env x y
  have hisSome := h.isSome_concat henv
  cases hget : store.env.get? x with
  | some v =>
    have hsame : (store.read x).2 = store := by rw [Store.read, hget]
    have hmet : x ∈ accesses.map Access.name := (h.isSome x).1 (by rw [hget]; rfl)
    rw [hsame] at hisSome ⊢
    refine ⟨hisSome, h.nodup, ?_⟩
    intro y
    rw [h.mem_unbound, readUnbound_concat]
    constructor
    · exact .inl
    · rintro (hy | ⟨heq, hbind⟩)
      · exact hy
      · cases heq
        exact readUnbound_of_bind_notMem hmet hbind
  | none =>
    have hnoted : (store.read x).2.unbound = store.unbound ++ [x] := by
      simp [Store.read, hget, Store.unbound, Note.unbound?]
    have hnew : x ∉ accesses.map Access.name := by
      rw [← h.isSome x, hget]
      exact Bool.false_ne_true
    refine ⟨hisSome, ?_, ?_⟩
    · rw [hnoted, List.nodup_append]
      refine ⟨h.nodup, List.nodup_singleton x, ?_⟩
      rintro y hy z hz rfl
      cases List.mem_singleton.1 hz
      exact hnew ((h.mem_unbound x).1 hy).name_mem
    · intro y
      have hbind : ∀ z, z = x → .bind z ∉ accesses := by
        rintro z rfl hmem
        exact hnew (List.mem_map_of_mem hmem)
      rw [hnoted, List.mem_append, List.mem_singleton, h.mem_unbound, readUnbound_concat]
      constructor
      · rintro (hy | rfl)
        · exact .inl hy
        · exact .inr ⟨rfl, hbind y rfl⟩
      · rintro (hy | ⟨heq, -⟩)
        · exact .inl hy
        · cases heq
          exact .inr rfl

/-- A variable that is bound is not noted. -/
theorem bind (h : store.Reflects accesses) (x : ι) (v : UInt64) :
    (store.bind x v).Reflects (accesses ++ [.bind x]) := by
  have hnoted : (store.bind x v).unbound = store.unbound := by
    simp [Store.bind, Store.unbound, Note.unbound?]
  refine ⟨h.isSome_concat fun y => Env.get?_set store.env x y v, hnoted ▸ h.nodup, ?_⟩
  · intro y
    rw [hnoted, h.mem_unbound, readUnbound_concat]
    constructor
    · exact .inl
    · rintro (hy | ⟨heq, -⟩)
      · exact hy
      · cases heq

/-- The variables of an expression are read from left to right. -/
theorem eval (h : store.Reflects accesses) (e : Expr ι) :
    (e.eval store).2.Reflects (accesses ++ e.vars.map .read) := by
  induction e generalizing store accesses with
  | lit | hole =>
    rw [Expr.vars, List.map_nil, List.append_nil]
    exact h
  | var s x => exact h.read x
  | unary s op e ih => exact ih h
  | binary s op l r ihl ihr =>
    rw [Expr.vars, List.map_append, ← List.append_assoc]
    exact ihr (ihl h)

theorem effect (h : store.Reflects accesses) (stmt : Stmt ι) :
    (stmt.effect store).2.Reflects (accesses ++ stmt.accesses) := by
  cases stmt with
  | bind s x e =>
    rw [Stmt.accesses, ← List.append_assoc]
    exact (h.eval e).bind x _
  | print s e => exact h.eval e

theorem effects (h : store.Reflects accesses) (stmts : List (Stmt ι)) :
    (effects store stmts).2.Reflects (accesses ++ stmts.flatMap Stmt.accesses) := by
  induction stmts generalizing store accesses with
  | nil =>
    rw [List.flatMap_nil, List.append_nil]
    exact h
  | cons stmt rest ih =>
    rw [List.flatMap_cons, ← List.append_assoc]
    exact ih (h.effect stmt)

end Store.Reflects

/-! ## Runs -/

namespace Machine

/-- The statements that are executed: all of them, or those up to the first whose output is refused,
this one included. -/
def executed (machine : Machine ι) : List (Stmt ι) → List (Stmt ι)
  | [] => []
  | stmt :: rest =>
    match stmt.exec machine with
    | (none, machine) => stmt :: executed machine rest
    | (some _, _) => [stmt]

/-- Without a refusal all statements are executed. -/
theorem executed_eq (stmts : List (Stmt ι)) {machine : Machine ι}
    (h : (machine.run stmts).1 = none) : machine.executed stmts = stmts := by
  induction stmts generalizing machine with
  | nil => rfl
  | cons stmt rest ih =>
    rw [run] at h
    rw [executed]
    rcases hexec : stmt.exec machine with ⟨- | refusal, next⟩
    · rw [hexec] at h
      exact congrArg (stmt :: ·) (ih h)
    · rw [hexec] at h
      cases h

/-- The statements that are executed stand in front of those that are not. -/
theorem executed_append (stmts : List (Stmt ι)) (machine : Machine ι) :
    ∃ skipped, stmts = machine.executed stmts ++ skipped := by
  induction stmts generalizing machine with
  | nil => exact ⟨[], rfl⟩
  | cons stmt rest ih =>
    rw [executed]
    rcases stmt.exec machine with ⟨- | refusal, next⟩
    · rcases ih next with ⟨skipped, hskipped⟩
      exact ⟨skipped, congrArg (stmt :: ·) hskipped⟩
    · exact ⟨rest, rfl⟩

/-- A run does to the store what the statements do that are executed. -/
theorem run_store_executed (stmts : List (Stmt ι)) (machine : Machine ι) :
    (machine.run stmts).2.store = (effects machine.store (machine.executed stmts)).2 := by
  induction stmts generalizing machine with
  | nil => rfl
  | cons stmt rest ih =>
    rw [run, executed, stmt.exec_eq]
    rcases machine.sink.write (stmt.effect machine.store).1 with ⟨- | refusal, sink⟩
    · exact ih ⟨(stmt.effect machine.store).2, sink⟩
    · rfl

/-- A run from the start notes the variables that the executed statements read before they bind
them. -/
theorem run_reflects (stmts : List (Stmt ι)) (sink : Sink) :
    ((start sink).run stmts).2.store.Reflects
      (((start sink).executed stmts).flatMap Stmt.accesses) := by
  rw [run_store_executed]
  exact Store.Reflects.empty.effects _

/-- What a run records that is not in full detail: the variables that it has noted. -/
theorem upTo_debug_journal (machine : Machine ι) (name : ι → String) :
    (machine.journal name).upTo .debug = machine.store.unbound.map fun x => .unbound (name x) := by
  rw [journal, Store.unbound, Journal.upTo]
  induction machine.store.notes.toList with
  | nil => rfl
  | cons note rest ih =>
    cases note with
    | unbound x => exact congrArg (Record.unbound (name x) :: ·) ih
    | bound x v => exact ih

end Machine

end LetCalc
