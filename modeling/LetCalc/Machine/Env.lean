import Std.Data.HashMap

/-!
# Variables and their values

An environment binds some variables to 64-bit words.  Reading a variable that has no value binds it
to zero.

Main results:

- Theorems `Env.get?_set` and `Env.get?_read`: what each operation does to every variable.
- Definition `Env.bindings`: the variables in the order of their names.
-/

namespace LetCalc

variable {ι : Type} [DecidableEq ι] [Hashable ι]

/-- The values of variables. -/
structure Env (ι : Type) [DecidableEq ι] [Hashable ι] where
  values : Std.HashMap ι UInt64

namespace Env

/-- No variable has a value. -/
def empty : Env ι := ⟨∅⟩

/-- The value of a variable. -/
def get? (env : Env ι) (x : ι) : Option UInt64 := env.values[x]?

/-- Gives a variable a value. -/
def set (env : Env ι) (x : ι) (v : UInt64) : Env ι := ⟨env.values.insert x v⟩

/-- Reads a variable, which binds it to zero if it has no value. -/
def read (env : Env ι) (x : ι) : UInt64 × Env ι :=
  match env.get? x with
  | some v => (v, env)
  | none => (0, env.set x 0)

/-- The number of variables that have a value. -/
def size (env : Env ι) : Nat := env.values.size

/-- Whether one binding precedes another in a listing: by name, then by value. -/
def bindingLe (a b : String × UInt64) : Bool := a.1 < b.1 || (a.1 = b.1 && a.2 ≤ b.2)

/-- The names of the variables with their values, in order. -/
def bindings (env : Env ι) (name : ι → String) : List (String × UInt64) :=
  (env.values.toList.map fun (x, v) => (name x, v)).mergeSort bindingLe

/-- Whether the same variables have the same values. -/
def same (a b : Env ι) : Bool :=
  a.size = b.size && a.values.toList.all fun (x, v) => b.get? x = some v

@[simp]
theorem get?_empty (x : ι) : (empty : Env ι).get? x = none := Std.HashMap.getElem?_empty

/-- Setting a variable changes this variable only. -/
theorem get?_set (env : Env ι) (x y : ι) (v : UInt64) :
    (env.set x v).get? y = if x = y then some v else env.get? y := by
  simp [get?, set, Std.HashMap.getElem?_insert]

/-- A variable that is read has a value from then on, and the others stay as they are. -/
theorem get?_read (env : Env ι) (x y : ι) :
    (env.read x).2.get? y = if x = y then some ((env.get? x).getD 0) else env.get? y := by
  unfold read
  split
  · next v h =>
    split
    · next e => subst e; simp [h]
    · rfl
  · next h => simp [get?_set, h]

/-- Reading a variable gives its value, or zero. -/
theorem value_read (env : Env ι) (x : ι) : (env.read x).1 = (env.get? x).getD 0 := by
  unfold read
  split <;> simp_all

end Env

end LetCalc
