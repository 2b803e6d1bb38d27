import LetCalc.Proofs.Machine.Renaming
import LetCalc.Proofs.Text.ByteOrder
import Mathlib.Logic.Function.Basic

/-!
# What programs mean

A program means the numbers that it prints and the values that it leaves behind.  The meaning is
given without a machine: every variable has a value, which is zero at first, an operator is applied
to whole numbers, and the result is reduced modulo the size of words.  Running a program on a
machine, where a variable gets its value only when it is first met, comes to the same.

Main results:

- Definitions `Expr.value`, `printedBy` and `valuesAfter`: what programs mean.
- Theorem `Machine.run_tracks`: running statements goes along with their meaning, and exactly the
  variables that were met have a value.
- Theorem `Env.bindings_strict`: variables with different names are listed in strict order.
- Theorem `Program.execute_means`: what running a program prints and leaves behind.
-/

namespace LetCalc

/-! ## Meaning -/

/-- The number below the size of words that is the same as `n` modulo this size. -/
def reduced (n : Int) : Int := n % (UInt64.size : Int)

/-- What a sign makes of a number. -/
def UnOp.exact : UnOp → Int → Int
  | plus, x => x
  | minus, x => -x

/-- What an operation makes of two numbers: division rounds down, and gives zero if there is nothing
to divide by. -/
def BinOp.exact : BinOp → Int → Int → Int
  | add, x, y => x + y
  | sub, x, y => x - y
  | mul, x, y => x * y
  | div, x, y => if y = 0 then 0 else x.fdiv y

section Meaning

variable {ι : Type} [DecidableEq ι]

/-- The value of an expression if the variables have the values `σ`. -/
def Expr.value (σ : ι → Int) : Expr ι → Int
  | .lit _ v => v.toNat
  | .var _ x => σ x
  | .unary _ op e => reduced (op.exact (e.value σ))
  | .binary _ op l r => reduced (op.exact (l.value σ) (r.value σ))
  | .hole _ => 0

/-- The values of the variables after a statement. -/
def Stmt.after (σ : ι → Int) : Stmt ι → ι → Int
  | .bind _ x e => Function.update σ x (e.value σ)
  | .print _ _ => σ

/-- The numbers that a statement prints. -/
def Stmt.printed (σ : ι → Int) : Stmt ι → List Int
  | .bind _ _ _ => []
  | .print _ e => [e.value σ]

/-- The values of the variables after some statements. -/
def valuesAfter (σ : ι → Int) (stmts : List (Stmt ι)) : ι → Int := stmts.foldl Stmt.after σ

/-- The numbers that some statements print. -/
def printedBy (σ : ι → Int) : List (Stmt ι) → List Int
  | [] => []
  | stmt :: rest => stmt.printed σ ++ printedBy (stmt.after σ) rest

end Meaning

/-- Numbers as they are printed, each on a line of its own. -/
def lines (ns : List Int) : String := String.join (ns.map fun n => n.repr ++ "\n")

theorem lines_append (ns ms : List Int) : lines (ns ++ ms) = lines ns ++ lines ms := by
  rw [lines, List.map_append, String.join_append]
  rfl

/-! ## Words as numbers -/

theorem reduced_toNat (v : UInt64) : reduced v.toNat = v.toNat := by
  have hlt : v.toNat < UInt64.size := v.toNat_lt_size
  exact Int.emod_eq_of_lt (by omega) (by omega)

/-- Signs on words are signs on numbers modulo the size of words. -/
theorem UnOp.toNat_apply (op : UnOp) (v : UInt64) :
    ((op.apply v).toNat : Int) = reduced (op.exact v.toNat) := by
  cases op with
  | plus => exact (reduced_toNat v).symm
  | minus =>
    have hlt : v.toNat < UInt64.size := v.toNat_lt_size
    have hsize : UInt64.size = 18446744073709551616 := rfl
    have hsub : (UnOp.minus.apply v).toNat = (UInt64.size - v.toNat + 0) % UInt64.size :=
      UInt64.toNat_sub 0 v
    rw [hsub, reduced, exact, hsize]
    omega

/-- Operations on words are operations on numbers modulo the size of words. -/
theorem BinOp.toNat_apply (op : BinOp) (v w : UInt64) :
    ((op.apply v w).toNat : Int) = reduced (op.exact v.toNat w.toNat) := by
  cases op with
  | add =>
    have hadd : (BinOp.add.apply v w).toNat = (v.toNat + w.toNat) % UInt64.size :=
      UInt64.toNat_add v w
    rw [hadd, reduced, exact, Int.natCast_emod, Int.natCast_add]
  | sub =>
    have hw : w.toNat < UInt64.size := w.toNat_lt_size
    have hsub : (BinOp.sub.apply v w).toNat
        = (UInt64.size - w.toNat + v.toNat) % UInt64.size := UInt64.toNat_sub v w
    have hsize : UInt64.size = 18446744073709551616 := rfl
    rw [hsub, reduced, exact, hsize]
    omega
  | mul =>
    have hmul : (BinOp.mul.apply v w).toNat = v.toNat * w.toNat % UInt64.size :=
      UInt64.toNat_mul v w
    rw [hmul, reduced, exact, Int.natCast_emod, Int.natCast_mul]
  | div =>
    have hdiv : (BinOp.div.apply v w).toNat = v.toNat / w.toNat := UInt64.toNat_div v w
    have hfloor : BinOp.div.exact v.toNat w.toNat = ((BinOp.div.apply v w).toNat : Int) := by
      rw [hdiv, exact, Int.natCast_ediv]
      by_cases hzero : (w.toNat : Int) = 0
      · rw [if_pos hzero, hzero, Int.ediv_zero]
      · rw [if_neg hzero]
        exact Int.fdiv_eq_ediv_of_nonneg _ (Int.natCast_nonneg _)
    rw [hfloor, reduced_toNat]

/-! ## Machines go along with the meaning -/

variable {ι : Type} [DecidableEq ι] [Hashable ι]

/-- The environment of a run in which the variables `met` were met: these have a value, no others
do, and a variable without a value counts as zero. -/
structure Env.Tracks (env : Env ι) (σ : ι → Int) (met : List ι) : Prop where
  value : ∀ x, (((env.get? x).getD 0).toNat : Int) = σ x
  isSome : ∀ x, (env.get? x).isSome = true ↔ x ∈ met

namespace Env.Tracks

variable {env : Env ι} {σ : ι → Int} {met : List ι}

theorem empty : (Env.empty : Env ι).Tracks (fun _ => 0) [] := by
  constructor
  · intro x
    rw [get?_empty]
    rfl
  · intro x
    rw [get?_empty]
    simp

/-- Setting a variable changes its value, and the variable is met. -/
theorem set (h : env.Tracks σ met) (x : ι) {v : UInt64} {n : Int} (hv : (v.toNat : Int) = n) :
    (env.set x v).Tracks (Function.update σ x n) (met ++ [x]) := by
  constructor
  · intro y
    rw [get?_set]
    by_cases hxy : x = y
    · subst hxy
      rw [if_pos rfl, Function.update_self]
      exact hv
    · rw [if_neg hxy, Function.update_of_ne (Ne.symm hxy)]
      exact h.value y
  · intro y
    rw [get?_set, List.mem_append, List.mem_singleton, ← h.isSome y]
    by_cases hxy : x = y
    · simp [hxy]
    · simp [hxy, Ne.symm hxy]

/-- Reading a variable gives its value and changes none, and the variable is met. -/
theorem read (h : env.Tracks σ met) (x : ι) :
    ((env.read x).1.toNat : Int) = σ x ∧ (env.read x).2.Tracks σ (met ++ [x]) := by
  refine ⟨?_, ?_, ?_⟩
  · rw [value_read]
    exact h.value x
  · intro y
    rw [get?_read]
    by_cases hxy : x = y
    · subst hxy
      rw [if_pos rfl]
      exact h.value x
    · rw [if_neg hxy]
      exact h.value y
  · intro y
    rw [get?_read, List.mem_append, List.mem_singleton, ← h.isSome y]
    by_cases hxy : x = y
    · simp [hxy]
    · simp [hxy, Ne.symm hxy]

/-- The variables that were met have their values, and the others have none. -/
theorem get?_map (h : env.Tracks σ met) (x : ι) :
    (env.get? x).map (fun v => (v.toNat : Int)) = if x ∈ met then some (σ x) else none := by
  have hvalue := h.value x
  have hmet := h.isSome x
  cases hx : env.get? x with
  | none =>
    rw [hx] at hmet
    rw [if_neg fun hmem => Bool.false_ne_true (hmet.2 hmem), Option.map_none]
  | some v =>
    rw [hx] at hvalue hmet
    rw [if_pos (hmet.1 rfl), Option.map_some]
    exact congrArg some hvalue

theorem get?_eq_some_iff (h : env.Tracks σ met) {x : ι} {v : UInt64} :
    env.get? x = some v ↔ x ∈ met ∧ (v.toNat : Int) = σ x := by
  have hmap := h.get?_map x
  constructor
  · intro hx
    rw [hx, Option.map_some] at hmap
    split at hmap
    · next hmem => exact ⟨hmem, Option.some.inj hmap⟩
    · cases hmap
  · rintro ⟨hmem, hvalue⟩
    rw [if_pos hmem, ← hvalue] at hmap
    rcases Option.map_eq_some_iff.1 hmap with ⟨w, hx, hw⟩
    obtain rfl : w = v := UInt64.toNat_inj.1 (Int.ofNat.inj hw)
    exact hx

end Env.Tracks

/-- Evaluating an expression gives its value, and its variables are met. -/
theorem Expr.eval_tracks (e : Expr ι) {store : Store ι} {σ : ι → Int} {met : List ι}
    (h : store.env.Tracks σ met) :
    ((e.eval store).1.toNat : Int) = e.value σ ∧ (e.eval store).2.env.Tracks σ (met ++ e.vars) := by
  induction e generalizing store met with
  | lit s v => exact ⟨rfl, by simpa [eval, vars] using h⟩
  | hole s => exact ⟨rfl, by simpa [eval, vars] using h⟩
  | var s x =>
    simp only [eval, vars, value, Store.value_read, Store.env_read]
    exact h.read x
  | unary s op e ih =>
    rcases ih h with ⟨hvalue, henv⟩
    refine ⟨?_, henv⟩
    rw [value, ← hvalue]
    exact op.toNat_apply _
  | binary s op l r ihl ihr =>
    rcases ihl h with ⟨hleft, hstore⟩
    rcases ihr hstore with ⟨hright, henv⟩
    constructor
    · rw [value, ← hleft, ← hright]
      exact op.toNat_apply _ _
    · rw [vars, ← List.append_assoc]
      exact henv

/-- A machine whose output takes everything, in the middle of a run that has printed `out`. -/
structure Machine.Tracks (machine : Machine ι) (σ : ι → Int) (met : List ι) (out : String) :
    Prop where
  env : machine.store.env.Tracks σ met
  room : machine.sink.room = none
  written : machine.sink.written = out

/-- A statement is executed without a refusal, and the machine goes along with its meaning. -/
theorem Stmt.exec_tracks (stmt : Stmt ι) {machine : Machine ι} {σ : ι → Int} {met : List ι}
    {out : String} (h : machine.Tracks σ met out) :
    (stmt.exec machine).1 = none ∧
      (stmt.exec machine).2.Tracks (stmt.after σ) (met ++ stmt.names)
        (out ++ lines (stmt.printed σ)) := by
  cases stmt with
  | bind s x e =>
    rcases e.eval_tracks h.env with ⟨hvalue, henv⟩
    refine ⟨rfl, ?_, h.room, ?_⟩
    · rw [names, ← List.append_assoc]
      exact henv.set x hvalue
    · exact h.written.trans (String.append_empty).symm
  | print s e =>
    rcases e.eval_tracks h.env with ⟨hvalue, henv⟩
    have hline : lines (printed σ (.print s e)) = (e.eval machine.store).1.toNat.repr ++ "\n" := by
      rw [printed, ← hvalue]
      rfl
    simp only [exec, Sink.write_unlimited h.room, hline]
    exact ⟨trivial, henv, h.room, congrArg (· ++ _) h.written⟩

/-- Statements are executed without a refusal, and the machine goes along with their meaning. -/
theorem Machine.run_tracks (stmts : List (Stmt ι)) {machine : Machine ι} {σ : ι → Int}
    {met : List ι} {out : String} (h : machine.Tracks σ met out) :
    (machine.run stmts).1 = none ∧
      (machine.run stmts).2.Tracks (valuesAfter σ stmts) (met ++ stmts.flatMap Stmt.names)
        (out ++ lines (printedBy σ stmts)) := by
  induction stmts generalizing machine σ met out with
  | nil => exact ⟨rfl, by simpa [run, valuesAfter, printedBy, lines] using h⟩
  | cons stmt rest ih =>
    rcases stmt.exec_tracks h with ⟨hrefusal, hnext⟩
    rcases hexec : stmt.exec machine with ⟨refusal, next⟩
    rw [hexec] at hrefusal hnext
    obtain rfl : refusal = none := hrefusal
    rw [run, hexec, List.flatMap_cons, ← List.append_assoc, printedBy, lines_append,
      ← String.append_assoc]
    exact ih hnext

/-! ## Listings -/

namespace Env

/-- A listing has the names of the variables with their values. -/
theorem mem_bindings {env : Env ι} {name : ι → String} {n : String} {v : UInt64} :
    (n, v) ∈ env.bindings name ↔ ∃ x, name x = n ∧ env.get? x = some v := by
  rw [bindings, List.mem_mergeSort, List.mem_map]
  constructor
  · rintro ⟨⟨x, w⟩, hmem, heq⟩
    rcases Prod.mk.inj heq with ⟨rfl, rfl⟩
    exact ⟨x, rfl, Std.HashMap.mem_toList_iff_getElem?_eq_some.1 hmem⟩
  · rintro ⟨x, rfl, hx⟩
    exact ⟨(x, v), Std.HashMap.mem_toList_iff_getElem?_eq_some.2 hx, rfl⟩

/-- Variables with different names are listed in strict order. -/
theorem bindings_strict (env : Env ι) {name : ι → String}
    (h : ∀ x y v w, env.get? x = some v → env.get? y = some w → name x = name y → x = y) :
    (env.bindings name).Pairwise fun a b => a.1 < b.1 := by
  have hdistinct : (env.values.toList.map fun b => (name b.1, b.2)).Pairwise
      fun a b => a.1 ≠ b.1 := by
    rw [List.pairwise_map]
    refine env.values.distinct_keys_toList.imp_of_mem ?_
    rintro ⟨x, v⟩ ⟨y, w⟩ hx hy hne hname
    rw [Std.HashMap.mem_toList_iff_getElem?_eq_some] at hx hy
    simp [h x y v w hx hy hname] at hne
  have hsorted : (env.bindings name).Pairwise (bindingLe · ·) :=
    List.pairwise_mergeSort bindingLe_trans bindingLe_total _
  have hdifferent : (env.bindings name).Pairwise fun a b => a.1 ≠ b.1 :=
    ((List.mergeSort_perm _ _).pairwise_iff fun hne => Ne.symm hne).2 hdistinct
  refine (hsorted.and hdifferent).imp ?_
  rintro a b ⟨hle, hne⟩
  exact (bindingLe_iff.1 hle).resolve_right fun hsame => hne hsame.1

end Env

namespace Interner

/-- The symbols that calls in a row give out. -/
def given (interner : Interner) : List String → List Symbol
  | [] => []
  | name :: rest => (interner.intern name).1 :: (interner.intern name).2.given rest

/-- Symbols that were given out are still the symbols of their names after all calls. -/
theorem given_eq_map (interner : Interner) (calls : List String) :
    interner.given calls = calls.map (interner.addAll calls).symbol := by
  induction calls generalizing interner with
  | nil => rfl
  | cons name rest ih =>
    have hmem : name ∈ (interner.add name).indices := mem_add.2 (Or.inl rfl)
    have hfirst : (interner.addAll (name :: rest)).symbol name = interner.symbol name :=
      (symbol_addAll hmem rest).trans (symbol_add_self interner name)
    rw [List.map_cons, hfirst]
    exact congrArg (interner.symbol name :: ·) (ih (interner.add name))

/-- Symbols that one table has given out are the same if their names are. -/
theorem eq_of_name_eq {interner : Interner} {calls : List String} {x y : Symbol}
    (hx : x ∈ interner.given calls) (hy : y ∈ interner.given calls) (h : x.name = y.name) :
    x = y := by
  rw [given_eq_map, List.mem_map] at hx hy
  rcases hx with ⟨name, -, rfl⟩
  rcases hy with ⟨name', -, rfl⟩
  exact congrArg _ h

end Interner

/-! ## Programs -/

/-- A run with an output that takes everything goes along with the meaning of the program. -/
theorem Program.execute_tracks (program : Program ι) {sink : Sink} (h : sink.room = none) :
    (program.execute sink).1 = none ∧
      (program.execute sink).2.Tracks (valuesAfter (fun _ => 0) program.stmts) program.names
        (sink.written ++ lines (printedBy (fun _ => 0) program.stmts)) := by
  have hstart : (Machine.start sink : Machine ι).Tracks (fun _ => 0) [] sink.written :=
    ⟨.empty, h, rfl⟩
  exact Machine.run_tracks program.stmts hstart

/-- Running a program with an output that takes everything does what the program means.  It prints
the printed numbers line by line; afterwards exactly the variables that occur in the program have a
value, which is the last one; and the listing has these variables with their values.  If all
variables are symbols that one table has given out, the listing is in strict order of the bytes of
the names. -/
theorem Program.execute_means (program : Program Symbol) (sink : Sink) (hsink : sink.room = none) :
    let run := program.execute sink
    let env := run.2.store.env
    let last := valuesAfter (fun _ => 0) program.stmts
    run.1 = none ∧
      run.2.sink.written = sink.written ++ lines (printedBy (fun _ => 0) program.stmts) ∧
      (∀ x, (env.get? x).map (fun v => (v.toNat : Int))
        = if x ∈ program.names then some (last x) else none) ∧
      (∀ n v, (n, v) ∈ env.bindings Symbol.name ↔
        ∃ x ∈ program.names, x.name = n ∧ (v.toNat : Int) = last x) ∧
      ∀ (interner : Interner) (calls : List String),
        (∀ x ∈ program.names, x ∈ interner.given calls) →
        (env.bindings Symbol.name).Pairwise fun a b => bytesOf a.1 < bytesOf b.1 := by
  intro run env last
  rcases program.execute_tracks hsink with ⟨hrefusal, htracks⟩
  have hbound : ∀ {x v}, env.get? x = some v ↔ x ∈ program.names ∧ (v.toNat : Int) = last x :=
    htracks.env.get?_eq_some_iff
  refine ⟨hrefusal, htracks.written, htracks.env.get?_map, ?_, ?_⟩
  · intro n v
    rw [Env.mem_bindings]
    constructor
    · rintro ⟨x, hname, hx⟩
      exact ⟨x, (hbound.1 hx).1, hname, (hbound.1 hx).2⟩
    · rintro ⟨x, hmem, hname, hvalue⟩
      exact ⟨x, hname, hbound.2 ⟨hmem, hvalue⟩⟩
  · intro interner calls hgiven
    refine (env.bindings_strict ?_).imp bytesOf_lt_bytesOf
    intro x y v w hx hy hname
    exact Interner.eq_of_name_eq (hgiven x (hbound.1 hx).1) (hgiven y (hbound.1 hy).1) hname

/-- A program that reads two variables before they have a value and divides by zero, and then gives
one of them a value twice, the second time from its own value. -/
def wrappingProgram : Program Symbol :=
  let here := Span.single .start
  let b : Symbol := ⟨0, 1, "b"⟩
  let e : Symbol := ⟨0, 0, "é"⟩
  ⟨none, here,
    [.print here (.binary here .div (.var here b) (.var here e)),
      .bind here b (.unary here .minus (.binary here .add (.hole here) (.lit here 1))),
      .bind here b (.binary here .sub (.binary here .mul (.var here b) (.var here b)) (.lit here 2)),
      .print here (.var here b)]⟩

/-- Both variables have a value in the end, and the one with the smaller first byte is listed
first. -/
theorem execute_wrappingProgram :
    let run := wrappingProgram.execute .unlimited
    Sink.unlimited.room = none ∧ run.1 = none ∧
      run.2.sink.written = "0\n18446744073709551615\n" ∧
      (run.2.store.env.get? ⟨0, 0, "é"⟩).map (fun v => (v.toNat : Int)) = some 0 ∧
      (∀ x ∈ wrappingProgram.names, x ∈ (Interner.empty 0).given ["é", "b"]) ∧
      (run.2.store.env.bindings Symbol.name).Pairwise fun a b => bytesOf a.1 < bytesOf b.1 := by
  intro run
  have hgiven : ∀ x ∈ wrappingProgram.names, x ∈ (Interner.empty 0).given ["é", "b"] := by
    have hsymbols : (Interner.empty 0).given ["é", "b"] = [⟨0, 0, "é"⟩, ⟨0, 1, "b"⟩] := by
      simp [Interner.given, Interner.intern, Interner.symbol, Interner.add, Interner.empty,
        Std.HashMap.getD_insert, Std.HashMap.size_insert]
    rw [hsymbols]
    decide
  rcases wrappingProgram.execute_means .unlimited rfl with ⟨hrefusal, hwritten, hget, -, hstrict⟩
  refine ⟨rfl, hrefusal, hwritten.trans ?_, (hget _).trans ?_, hgiven, hstrict _ _ hgiven⟩
  · decide +kernel
  · decide +kernel

end LetCalc
