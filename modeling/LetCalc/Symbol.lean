import LetCalc.Program.Basic
import LetCalc.Text.Quoted
import LetCalc.Token.Basic
import Std.Data.HashMap

/-!
# Interned names

A table of names gives each name one index, so that two symbols of the table are the same exactly
when their names are.  Symbols of different tables are never the same, whatever their names.

Main results:

- Definition `Interner.intern`: the symbol of a name, and the table that has the name in it.
- Theorem `Interner.symbol_addAll`: adding names changes no symbol that the table has given out.
- Definitions `Interner.internProgram` and `Interner.internView`: whole programs and tokens over
  symbols.
-/

namespace LetCalc

/-- A name in a table of names. -/
structure Symbol where
  /-- The number of the table. -/
  table : Nat
  /-- The place of the name in the table. -/
  index : Nat
  name : String
deriving DecidableEq, Hashable, Repr

/-- A symbol as it is shown to someone who looks for faults: its name between quotes. -/
def Symbol.inspect (symbol : Symbol) : String := "Symbol(" ++ quoted symbol.name ++ ")"

/-- A table of names. -/
structure Interner where
  /-- The number of the table, which sets it apart from other tables. -/
  table : Nat
  /-- The index of each name. -/
  indices : Std.HashMap String Nat

namespace Interner

/-- The table with the given number and no names. -/
def empty (table : Nat) : Interner := ⟨table, ∅⟩

/-- The symbol of a name.  A name that is not in the table yet has the index that it gets when it
is added next. -/
def symbol (interner : Interner) (name : String) : Symbol :=
  ⟨interner.table, interner.indices.getD name interner.indices.size, name⟩

/-- The table with one more name, or as it is if it has the name. -/
def add (interner : Interner) (name : String) : Interner :=
  if name ∈ interner.indices then interner
  else { interner with indices := interner.indices.insert name interner.indices.size }

/-- The table with more names, in the given order. -/
def addAll (interner : Interner) (names : List String) : Interner := names.foldl add interner

/-- The symbol of a name, and the table that has the name in it. -/
def intern (interner : Interner) (name : String) : Symbol × Interner :=
  (interner.symbol name, interner.add name)

/-- A program over symbols, and the table that has its names in it. -/
def internProgram (interner : Interner) (program : Program String) : Program Symbol × Interner :=
  let interner := interner.addAll program.names
  (program.map interner.symbol, interner)

/-- An expression over symbols, and the table that has its names in it. -/
def internExpr (interner : Interner) (e : Expr String) : Expr Symbol × Interner :=
  let interner := interner.addAll e.vars
  (e.map interner.symbol, interner)

/-- A view over symbols, and the table that has its name in it. -/
def internView (interner : Interner) (view : View String) : View Symbol × Interner :=
  let interner :=
    match view.kind with
    | some (.identifier name) => interner.add name
    | _ => interner
  (view.map interner.symbol, interner)

/-! ## Symbols stay what they are -/

@[simp]
theorem name_symbol (interner : Interner) (name : String) : (interner.symbol name).name = name :=
  rfl

@[simp]
theorem table_symbol (interner : Interner) (name : String) :
    (interner.symbol name).table = interner.table := rfl

@[simp]
theorem table_add (interner : Interner) (name : String) :
    (interner.add name).table = interner.table := by
  unfold add
  split <;> rfl

/-- Adding a name adds this name only. -/
theorem mem_add {interner : Interner} {name other : String} :
    other ∈ (interner.add name).indices ↔ other = name ∨ other ∈ interner.indices := by
  unfold add
  split
  · next h => exact ⟨Or.inr, fun h' => h'.elim (fun e => e ▸ h) id⟩
  · rw [Std.HashMap.mem_insert, beq_iff_eq]
    exact or_congr eq_comm Iff.rfl

/-- Adding a name changes no symbol that the table has given out. -/
theorem symbol_add_of_mem {interner : Interner} {name other : String}
    (h : other ∈ interner.indices) : (interner.add name).symbol other = interner.symbol other := by
  unfold add
  split
  · rfl
  · next hnot =>
    have hne : name ≠ other := fun e => hnot (e ▸ h)
    simp only [symbol, Std.HashMap.getD_insert, beq_iff_eq, hne, if_false, Symbol.mk.injEq,
      true_and, and_true]
    rw [Std.HashMap.getD_eq_getD_getElem?, Std.HashMap.getD_eq_getD_getElem?,
      Std.HashMap.getElem?_eq_some_getElem h, Option.getD_some, Option.getD_some]

/-- A name that is added gets the symbol that it was promised. -/
@[simp]
theorem symbol_add_self (interner : Interner) (name : String) :
    (interner.add name).symbol name = interner.symbol name := by
  by_cases h : name ∈ interner.indices
  · exact symbol_add_of_mem h
  · simp [add, h, symbol, Std.HashMap.getD_eq_fallback h]

@[simp]
theorem table_addAll (interner : Interner) (names : List String) :
    (interner.addAll names).table = interner.table := by
  induction names generalizing interner with
  | nil => rfl
  | cons name rest ih => exact (ih _).trans (table_add ..)

/-- Adding names changes no symbol that the table has given out. -/
theorem symbol_addAll {interner : Interner} {other : String} (h : other ∈ interner.indices)
    (names : List String) : (interner.addAll names).symbol other = interner.symbol other := by
  induction names generalizing interner with
  | nil => rfl
  | cons name rest ih => exact (ih (mem_add.2 (Or.inr h))).trans (symbol_add_of_mem h)

end Interner

end LetCalc
