import LetCalc.Journal
import LetCalc.Machine.Env
import LetCalc.Machine.Sink
import LetCalc.Program.Basic

/-!
# Running programs

Expressions are evaluated and statements executed on a machine: the values of variables, the
output, and notes about variables.  Everything is defined, except that output may be refused.

Main results:

- Definition `Expr.eval`: the value of an expression, and the store after the variables in it have
  been read.
- Definitions `Stmt.exec` and `Machine.run`: statements one by one, up to a refusal.
-/

namespace LetCalc

variable {ι : Type} [DecidableEq ι] [Hashable ι]

/-! ## Stores -/

/-- Something that happened to a variable. -/
inductive Note (ι : Type) where
  /-- It was read before it had a value. -/
  | unbound (name : ι)
  /-- A statement gave it a value. -/
  | bound (name : ι) (value : UInt64)
deriving DecidableEq, Repr

/-- A note in a journal. -/
def Note.record (name : ι → String) : Note ι → Record
  | .unbound x => .unbound (name x)
  | .bound x v => .bound (name x) v

/-- The values of variables, and what happened to them. -/
structure Store (ι : Type) [DecidableEq ι] [Hashable ι] where
  env : Env ι
  notes : Array (Note ι)

namespace Store

/-- No variable has a value, and nothing has happened. -/
def empty : Store ι := ⟨.empty, #[]⟩

/-- Reads a variable.  If it has no value yet, it gets zero, which is noted. -/
def read (store : Store ι) (x : ι) : UInt64 × Store ι :=
  match store.env.get? x with
  | some v => (v, store)
  | none => (0, ⟨store.env.set x 0, store.notes.push (.unbound x)⟩)

/-- Gives a variable a value, and notes it. -/
def bind (store : Store ι) (x : ι) (v : UInt64) : Store ι :=
  ⟨store.env.set x v, store.notes.push (.bound x v)⟩

@[simp]
theorem value_read (store : Store ι) (x : ι) : (store.read x).1 = (store.env.read x).1 := by
  unfold read Env.read
  split <;> simp_all

@[simp]
theorem env_read (store : Store ι) (x : ι) : (store.read x).2.env = (store.env.read x).2 := by
  unfold read Env.read
  split <;> simp_all

end Store

/-- The value of an expression, and the store after reading its variables from left to right.  A
hole has the value zero. -/
def Expr.eval (store : Store ι) : Expr ι → UInt64 × Store ι
  | .lit _ v => (v, store)
  | .var _ x => store.read x
  | .unary _ op e =>
    let (v, store) := e.eval store
    (op.apply v, store)
  | .binary _ op l r =>
    let (v, store) := l.eval store
    let (w, store) := r.eval store
    (op.apply v w, store)
  | .hole _ => (0, store)

/-! ## Machines -/

/-- A store and an output. -/
structure Machine (ι : Type) [DecidableEq ι] [Hashable ι] where
  store : Store ι
  sink : Sink

/-- Executes a statement; the refusal, if the output was refused, and the machine after it. -/
def Stmt.exec (machine : Machine ι) : Stmt ι → Option Refusal × Machine ι
  | .bind _ x e =>
    let (v, store) := e.eval machine.store
    (none, { machine with store := store.bind x v })
  | .print _ e =>
    let (v, store) := e.eval machine.store
    let (refusal, sink) := machine.sink.write (v.toNat.repr ++ "\n")
    (refusal, ⟨store, sink⟩)

namespace Machine

/-- A machine in which nothing has happened, with the given output. -/
def start (sink : Sink) : Machine ι := ⟨.empty, sink⟩

/-- Evaluates an expression. -/
def calculate (machine : Machine ι) (e : Expr ι) : UInt64 × Machine ι :=
  let (v, store) := e.eval machine.store
  (v, { machine with store })

/-- Executes statements in order, up to the first whose output is refused. -/
def run (machine : Machine ι) : List (Stmt ι) → Option Refusal × Machine ι
  | [] => (none, machine)
  | stmt :: rest =>
    match stmt.exec machine with
    | (none, machine) => run machine rest
    | (some refusal, machine) => (some refusal, machine)

/-- What has been noted, as records. -/
def journal (machine : Machine ι) (name : ι → String) : Journal :=
  machine.store.notes.toList.map (Note.record name)

end Machine

end LetCalc
