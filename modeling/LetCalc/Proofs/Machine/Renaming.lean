import LetCalc.Interpreter
import LetCalc.Proofs.Program.Grammar

/-!
# Running programs over other names

What a program prints, and which values it leaves behind, depends neither on the places in its tree
nor on what its variables are called, as long as different variables stay different.

Main results:

- Theorem `Env.Renamed.bindings_eq`: renamed environments list the same bindings.
- Theorem `Program.execute_congr`: places do not matter.
- Theorem `Program.execute_map`: names do not matter.
-/

namespace LetCalc

variable {ι κ : Type} [DecidableEq ι] [Hashable ι] [DecidableEq κ] [Hashable κ]

/-! ## Environments -/

namespace Env

/-- An environment over other names: `f x` has the value of `x`, and nothing else has one. -/
structure Renamed (f : ι → κ) (env : Env ι) (env' : Env κ) : Prop where
  get? : ∀ x, env'.get? (f x) = env.get? x
  exists_name : ∀ y v, env'.get? y = some v → ∃ x, f x = y

namespace Renamed

variable {f : ι → κ} {env : Env ι} {env' : Env κ}

theorem empty (f : ι → κ) : Renamed f .empty .empty := by
  constructor
  · intro x
    rw [get?_empty, get?_empty]
  · intro y v hy
    rw [get?_empty] at hy
    cases hy

theorem set (h : Renamed f env env') (hf : Function.Injective f) (x : ι) (v : UInt64) :
    Renamed f (env.set x v) (env'.set (f x) v) := by
  constructor
  · intro y
    rw [get?_set, get?_set]
    by_cases hxy : x = y
    · rw [if_pos hxy, if_pos (congrArg f hxy)]
    · rw [if_neg hxy, if_neg fun he => hxy (hf he), h.get? y]
  · intro y w hy
    rw [get?_set] at hy
    by_cases hxy : f x = y
    · exact ⟨x, hxy⟩
    · rw [if_neg hxy] at hy
      exact h.exists_name y w hy

theorem read (h : Renamed f env env') (hf : Function.Injective f) (x : ι) :
    (env'.read (f x)).1 = (env.read x).1 ∧ Renamed f (env.read x).2 (env'.read (f x)).2 := by
  constructor
  · rw [value_read, value_read, h.get? x]
  · unfold Env.read
    rw [h.get? x]
    cases hx : env.get? x with
    | some v => exact h
    | none => exact h.set hf x 0

end Renamed

/-! ## Listings -/

theorem bindingLe_iff {a b : String × UInt64} :
    bindingLe a b = true ↔ a.1 < b.1 ∨ a.1 = b.1 ∧ a.2 ≤ b.2 := by
  simp [bindingLe]

theorem bindingLe_trans (a b c : String × UInt64) (hab : bindingLe a b = true)
    (hbc : bindingLe b c = true) : bindingLe a c = true := by
  rw [bindingLe_iff] at hab hbc ⊢
  rcases hab with hab | ⟨hab, hvab⟩
  · rcases hbc with hbc | ⟨hbc, -⟩
    · exact Or.inl (String.lt_trans hab hbc)
    · exact Or.inl (hbc ▸ hab)
  · rcases hbc with hbc | ⟨hbc, hvbc⟩
    · exact Or.inl (hab ▸ hbc)
    · exact Or.inr ⟨hab.trans hbc, UInt64.le_trans hvab hvbc⟩

theorem bindingLe_total (a b : String × UInt64) : (bindingLe a b || bindingLe b a) = true := by
  rw [Bool.or_eq_true, bindingLe_iff, bindingLe_iff]
  by_cases hlt : a.1 < b.1
  · exact Or.inl (Or.inl hlt)
  · by_cases hgt : b.1 < a.1
    · exact Or.inr (Or.inl hgt)
    · have hname : a.1 = b.1 := String.le_antisymm (String.not_lt.1 hgt) (String.not_lt.1 hlt)
      rcases UInt64.le_total a.2 b.2 with hle | hle
      · exact Or.inl (Or.inr ⟨hname, hle⟩)
      · exact Or.inr (Or.inr ⟨hname.symm, hle⟩)

theorem bindingLe_antisymm {a b : String × UInt64} (hab : bindingLe a b = true)
    (hba : bindingLe b a = true) : a = b := by
  rw [bindingLe_iff] at hab hba
  rcases hab with hab | ⟨hab, hvab⟩
  · rcases hba with hba | ⟨hba, -⟩
    · exact absurd hba (String.lt_asymm hab)
    · exact absurd (hba ▸ hab) (String.lt_irrefl _)
  · rcases hba with hba | ⟨-, hvba⟩
    · exact absurd (hab ▸ hba) (String.lt_irrefl _)
    · exact Prod.ext hab (UInt64.le_antisymm hvab hvba)

/-- The same bindings in any order are listed alike. -/
theorem mergeSort_eq_of_perm {xs ys : List (String × UInt64)} (h : xs.Perm ys) :
    xs.mergeSort bindingLe = ys.mergeSort bindingLe := by
  have hperm : (xs.mergeSort bindingLe).Perm (ys.mergeSort bindingLe) :=
    (List.mergeSort_perm xs _).trans (h.trans (List.mergeSort_perm ys _).symm)
  have hsorted : ∀ zs : List (String × UInt64), (zs.mergeSort bindingLe).Pairwise (bindingLe · ·) :=
    List.pairwise_mergeSort bindingLe_trans bindingLe_total
  exact hperm.eq_of_pairwise (fun a b _ _ => bindingLe_antisymm) (hsorted xs) (hsorted ys)

theorem nodup_toList (env : Env ι) : env.values.toList.Nodup := by
  refine env.values.distinct_keys_toList.imp ?_
  intro a b hne heq
  simp [heq] at hne

/-- Renamed environments list the same bindings. -/
theorem Renamed.bindings_eq {f : ι → κ} {env : Env ι} {env' : Env κ} (h : Renamed f env env')
    (hf : Function.Injective f) {name : ι → String} {name' : κ → String}
    (hname : ∀ x, name' (f x) = name x) : env'.bindings name' = env.bindings name := by
  have hperm : (env.values.toList.map fun b => (f b.1, b.2)).Perm env'.values.toList := by
    refine (List.perm_ext_iff_of_nodup ?_ env'.nodup_toList).2 ?_
    · refine List.Pairwise.map _ ?_ env.nodup_toList
      intro a b hne heq
      rcases Prod.ext_iff.1 heq with ⟨hfst, hsnd⟩
      exact hne (Prod.ext (hf hfst) hsnd)
    · rintro ⟨y, v⟩
      rw [Std.HashMap.mem_toList_iff_getElem?_eq_some, List.mem_map]
      constructor
      · rintro ⟨⟨x, w⟩, hx, heq⟩
        rcases Prod.mk.inj heq with ⟨rfl, rfl⟩
        rw [Std.HashMap.mem_toList_iff_getElem?_eq_some] at hx
        exact (h.get? x).trans hx
      · intro hy
        rcases h.exists_name y v hy with ⟨x, rfl⟩
        refine ⟨(x, v), ?_, rfl⟩
        rw [Std.HashMap.mem_toList_iff_getElem?_eq_some]
        exact (h.get? x).symm.trans hy
  refine mergeSort_eq_of_perm ?_
  have hnames := (hperm.map fun b => (name' b.1, b.2)).symm
  simpa [Function.comp_def, hname] using hnames

end Env

/-! ## Runs -/

/-- A machine over other names, with the same output. -/
structure Machine.Renamed (f : ι → κ) (machine : Machine ι) (machine' : Machine κ) : Prop where
  env : Env.Renamed f machine.store.env machine'.store.env
  sink : machine'.sink = machine.sink

/-- An expression has the same value over other names. -/
theorem Expr.eval_map {f : ι → κ} (hf : Function.Injective f) (e : Expr ι) {store : Store ι}
    {store' : Store κ} (h : Env.Renamed f store.env store'.env) :
    ((e.map f).eval store').1 = (e.eval store).1 ∧
      Env.Renamed f (e.eval store).2.env ((e.map f).eval store').2.env := by
  induction e generalizing store store' with
  | lit s v => exact ⟨rfl, h⟩
  | hole s => exact ⟨rfl, h⟩
  | var s x =>
    rcases h.read hf x with ⟨hvalue, henv⟩
    simp only [map, eval, Store.value_read, Store.env_read]
    exact ⟨hvalue, henv⟩
  | unary s op e ih =>
    rcases ih h with ⟨hvalue, henv⟩
    exact ⟨congrArg op.apply hvalue, henv⟩
  | binary s op l r ihl ihr =>
    rcases ihl h with ⟨hleft, hstore⟩
    rcases ihr hstore with ⟨hright, henv⟩
    refine ⟨?_, henv⟩
    simp only [map, eval]
    rw [hleft, hright]

/-- A statement does the same over other names. -/
theorem Stmt.exec_map {f : ι → κ} (hf : Function.Injective f) (stmt : Stmt ι)
    {machine : Machine ι} {machine' : Machine κ} (h : machine.Renamed f machine') :
    ((stmt.map f).exec machine').1 = (stmt.exec machine).1 ∧
      (stmt.exec machine).2.Renamed f ((stmt.map f).exec machine').2 := by
  cases stmt with
  | bind s x e =>
    rcases e.eval_map hf h.env with ⟨hvalue, henv⟩
    refine ⟨rfl, ?_, h.sink⟩
    simp only [map, exec, Store.bind]
    rw [hvalue]
    exact henv.set hf x _
  | print s e =>
    rcases e.eval_map hf h.env with ⟨hvalue, henv⟩
    simp only [map, exec]
    rw [hvalue, h.sink]
    exact ⟨rfl, henv, rfl⟩

/-- Statements do the same over other names. -/
theorem Machine.run_map {f : ι → κ} (hf : Function.Injective f) (stmts : List (Stmt ι))
    {machine : Machine ι} {machine' : Machine κ} (h : machine.Renamed f machine') :
    (machine'.run (stmts.map (Stmt.map f))).1 = (machine.run stmts).1 ∧
      (machine.run stmts).2.Renamed f (machine'.run (stmts.map (Stmt.map f))).2 := by
  induction stmts generalizing machine machine' with
  | nil => exact ⟨rfl, h⟩
  | cons stmt rest ih =>
    rcases stmt.exec_map hf h with ⟨hrefusal, hnext⟩
    rw [List.map_cons, run, run]
    rcases hexec : stmt.exec machine with ⟨refusal, next⟩
    rcases hexec' : (stmt.map f).exec machine' with ⟨refusal', next'⟩
    rw [hexec, hexec'] at hrefusal hnext
    obtain rfl : refusal' = refusal := hrefusal
    cases refusal' with
    | none => exact ih hnext
    | some refusal => exact ⟨rfl, hnext⟩

/-- A program does the same over other names. -/
theorem Program.execute_map {f : ι → κ} (hf : Function.Injective f) (program : Program ι)
    (sink : Sink) :
    ((program.map f).execute sink).1 = (program.execute sink).1 ∧
      (program.execute sink).2.Renamed f ((program.map f).execute sink).2 :=
  Machine.run_map hf program.stmts ⟨Env.Renamed.empty f, rfl⟩

/-! ## Places -/

/-- Places do not matter to the value of an expression. -/
theorem Expr.eval_toExpr (e : Expr ι) (store : Store ι) :
    e.tree.toExpr.eval store = e.eval store := by
  induction e generalizing store with
  | lit | var | hole => rfl
  | unary s op e ih => simp only [tree, ExprTree.toExpr, eval, ih]
  | binary s op l r ihl ihr => simp only [tree, ExprTree.toExpr, eval, ihl, ihr]

/-- Places do not matter to what a statement does. -/
theorem Stmt.exec_toStmt (stmt : Stmt ι) (machine : Machine ι) :
    stmt.tree.toStmt.exec machine = stmt.exec machine := by
  cases stmt with
  | bind s x e => simp only [tree, StmtTree.toStmt, exec, Expr.eval_toExpr]
  | print s e => simp only [tree, StmtTree.toStmt, exec, Expr.eval_toExpr]

/-- Places do not matter to what statements do. -/
theorem Machine.run_toStmt (stmts : List (Stmt ι)) (machine : Machine ι) :
    machine.run ((stmts.map Stmt.tree).map StmtTree.toStmt) = machine.run stmts := by
  induction stmts generalizing machine with
  | nil => rfl
  | cons stmt rest ih =>
    rw [List.map_cons, List.map_cons, run, run, Stmt.exec_toStmt]
    rcases stmt.exec machine with ⟨refusal, next⟩
    cases refusal with
    | none => exact ih next
    | some refusal => rfl

/-- Programs with the same trees do the same. -/
theorem Program.execute_congr {program program' : Program ι} (h : program.trees = program'.trees)
    (sink : Sink) : program.execute sink = program'.execute sink := by
  have htrees : program.stmts.map Stmt.tree = program'.stmts.map Stmt.tree := h
  rw [execute, execute, ← Machine.run_toStmt, htrees, Machine.run_toStmt]

end LetCalc
