import LetCalc.Interpreter
import LetCalc.Proofs.Text.ByteOrder
import Mathlib.Data.List.Basic

/-!
# Output that is cut off

A sink with a limit may refuse a line, at whatever byte the limit happens to fall.  It makes no
difference in how many pieces a text is written, so a whole run writes to a sink as if all that the
statements print were written at once.  What such a sink has accepted is therefore the front of
what a sink without limit accepts.  The statements in front of the refused line are executed as
ever, the expression of that line is evaluated, and no statement behind it has an effect.

Main results:

- Theorem `Sink.write_append`: a text is written in two pieces as it is at once.
- Definition `effects`: what statements print and what they do to a store, if nothing is refused.
- Theorem `Machine.run_sink`: a run writes all its output as one text.
- Theorem `Machine.exists_refused`: the statement at which a run ends that is refused.
- Theorem `Machine.run_cut_off`: what a limit changes, and what it does not.
-/

namespace LetCalc

/-! ## Texts of one-byte characters -/

/-- Each character of the text is one byte. -/
def OneByte (text : String) : Prop := ∀ c ∈ text.toList, c.toNat < 0x80

namespace OneByte

theorem append {a b : String} (ha : OneByte a) (hb : OneByte b) : OneByte (a ++ b) := by
  intro c hc
  rw [String.toList_append, List.mem_append] at hc
  rcases hc with hc | hc
  · exact ha c hc
  · exact hb c hc

theorem repr (n : Nat) : OneByte n.repr := by
  intro c hc
  rw [Nat.toList_repr] at hc
  have hdigit := Nat.isDigit_of_mem_toDigits (by decide) (by decide) hc
  simp only [Char.isDigit, Bool.and_eq_true, decide_eq_true_eq, UInt32.le_iff_toNat_le] at hdigit
  exact Nat.lt_of_le_of_lt hdigit.2 (by decide)

theorem bytesOf_eq {text : String} (h : OneByte text) :
    bytesOf text = text.toList.map fun c => UInt8.ofNat c.toNat := by
  rw [bytesOf_eq_flatMap, List.map_eq_flatMap]
  apply List.flatMap_congr
  intro c hc
  exact Utf8.encode_one (h c hc)

theorem length_bytesOf {text : String} (h : OneByte text) :
    (bytesOf text).length = text.length := by
  rw [h.bytesOf_eq, List.length_map, String.length_toList]

/-- The front of a text has the front of its bytes. -/
theorem bytesOf_take {text : String} (h : OneByte text) (n : Nat) :
    bytesOf (.ofList (text.toList.take n)) = (bytesOf text).take n := by
  have hfront : OneByte (.ofList (text.toList.take n)) := by
    intro c hc
    rw [String.toList_ofList] at hc
    exact h c (List.mem_of_mem_take hc)
  rw [hfront.bytesOf_eq, h.bytesOf_eq, String.toList_ofList, List.map_take]

end OneByte

theorem bytesOf_append (a b : String) : bytesOf (a ++ b) = bytesOf a ++ bytesOf b := by
  rw [bytesOf_eq_flatMap, bytesOf_eq_flatMap, bytesOf_eq_flatMap, String.toList_append,
    List.flatMap_append]

/-! ## Writing in pieces -/

namespace Sink

theorem write_empty (sink : Sink) : sink.write "" = (none, sink) := by
  rcases sink with ⟨- | room, refusal, written⟩ <;> simp [write]

/-- A text is written in two pieces as it is at once: the second piece is written unless the first
one was refused. -/
theorem write_append (sink : Sink) (a b : String) :
    sink.write (a ++ b) =
      match sink.write a with
      | (none, sink) => sink.write b
      | (some refusal, sink) => (some refusal, sink) := by
  rcases sink with ⟨- | room, refusal, written⟩
  · simp [write, String.append_assoc]
  by_cases ha : a.length ≤ room
  · have hwritten : write ⟨some room, refusal, written⟩ a
        = (none, ⟨some (room - a.length), refusal, written ++ a⟩) := if_pos ha
    rw [hwritten]
    by_cases hb : b.length ≤ room - a.length
    · have hboth : a.length + b.length ≤ room := by omega
      simp [write, hb, hboth, Nat.sub_sub, String.append_assoc]
    · have hboth : ¬ a.length + b.length ≤ room := by omega
      have htake : (a.toList ++ b.toList).take room
          = a.toList ++ b.toList.take (room - a.length) := by
        rw [List.take_append, String.length_toList, List.take_of_length_le]
        rwa [String.length_toList]
      simp [write, hb, hboth, htake, String.append_assoc]
  · have hboth : ¬ a.length + b.length ≤ room := by omega
    have htake : (a.toList ++ b.toList).take room = a.toList.take room := by
      apply List.take_append_of_le_length
      rw [String.length_toList]
      omega
    simp [write, ha, hboth, htake]

/-- A sink with a limit accepts the front of a text, and refuses the text if this is not all. -/
theorem write_limited {text : String} (h : OneByte text) (room : Nat) (refusal : Refusal)
    (written : String) :
    (write ⟨some room, refusal, written⟩ text).1
        = (if room < (bytesOf text).length then some refusal else none) ∧
      bytesOf (write ⟨some room, refusal, written⟩ text).2.written
        = bytesOf written ++ (bytesOf text).take room := by
  rw [h.length_bytesOf]
  by_cases hfits : text.length ≤ room
  · have htake : (bytesOf text).take room = bytesOf text := by
      apply List.take_of_length_le
      rwa [h.length_bytesOf]
    simp [write, hfits, htake, Nat.not_lt.2 hfits, bytesOf_append]
  · simp [write, hfits, Nat.lt_of_not_le hfits, bytesOf_append, h.bytesOf_take]

end Sink

/-! ## What statements print -/

variable {ι : Type} [DecidableEq ι] [Hashable ι]

/-- What a statement prints, and the store after it. -/
def Stmt.effect (store : Store ι) : Stmt ι → String × Store ι
  | .bind _ x e =>
    let (v, store) := e.eval store
    ("", store.bind x v)
  | .print _ e =>
    let (v, store) := e.eval store
    (v.toNat.repr ++ "\n", store)

/-- What statements print if nothing is refused, and the store after them. -/
def effects (store : Store ι) : List (Stmt ι) → String × Store ι
  | [] => ("", store)
  | stmt :: rest =>
    let first := stmt.effect store
    let more := effects first.2 rest
    (first.1 ++ more.1, more.2)

theorem Stmt.oneByte_effect (stmt : Stmt ι) (store : Store ι) : OneByte (stmt.effect store).1 := by
  cases stmt with
  | bind s x e =>
    intro c hc
    cases hc
  | print s e =>
    refine (OneByte.repr _).append ?_
    intro c hc
    obtain rfl : c = '\n' := by simpa using hc
    decide

theorem oneByte_effects (stmts : List (Stmt ι)) (store : Store ι) :
    OneByte (effects store stmts).1 := by
  induction stmts generalizing store with
  | nil =>
    intro c hc
    cases hc
  | cons stmt rest ih => exact (stmt.oneByte_effect store).append (ih _)

/-- Executing a statement is writing what it prints. -/
theorem Stmt.exec_eq (stmt : Stmt ι) (machine : Machine ι) :
    stmt.exec machine
      = ((machine.sink.write (stmt.effect machine.store).1).1,
        ⟨(stmt.effect machine.store).2, (machine.sink.write (stmt.effect machine.store).1).2⟩) := by
  cases stmt with
  | bind s x e => simp [exec, effect, Sink.write_empty]
  | print s e => rfl

namespace Machine

/-- A run writes all its output as one text. -/
theorem run_sink (stmts : List (Stmt ι)) (machine : Machine ι) :
    (machine.run stmts).1 = (machine.sink.write (effects machine.store stmts).1).1 ∧
      (machine.run stmts).2.sink = (machine.sink.write (effects machine.store stmts).1).2 := by
  induction stmts generalizing machine with
  | nil => simp [run, effects, Sink.write_empty]
  | cons stmt rest ih =>
    rw [run, stmt.exec_eq, effects, Sink.write_append]
    rcases machine.sink.write (stmt.effect machine.store).1 with ⟨- | refusal, sink⟩
    · exact ih ⟨(stmt.effect machine.store).2, sink⟩
    · exact ⟨rfl, rfl⟩

/-- A run that is not refused does to the store what its statements do. -/
theorem run_store (stmts : List (Stmt ι)) {machine : Machine ι} (h : (machine.run stmts).1 = none) :
    (machine.run stmts).2.store = (effects machine.store stmts).2 := by
  induction stmts generalizing machine with
  | nil => rfl
  | cons stmt rest ih =>
    rw [run, stmt.exec_eq] at h ⊢
    rcases hwrite : machine.sink.write (stmt.effect machine.store).1 with ⟨- | refusal, sink⟩
    · rw [hwrite] at h
      exact ih h
    · rw [hwrite] at h
      cases h

/-- A run whose output takes everything is not refused. -/
theorem run_unlimited (stmts : List (Stmt ι)) {machine : Machine ι}
    (h : machine.sink.room = none) :
    machine.run stmts
      = (none, ⟨(effects machine.store stmts).2,
        { machine.sink with
          written := machine.sink.written ++ (effects machine.store stmts).1 }⟩) := by
  have hsink := run_sink stmts machine
  rw [Sink.write_unlimited h] at hsink
  rw [← run_store stmts hsink.1]
  exact Prod.ext hsink.1 (congrArg (Machine.mk _) hsink.2)

/-- A run that is refused ends at a line to print.  The statements in front of it are not refused,
the expression of the line is evaluated, and with the line the run is refused. -/
theorem exists_refused (stmts : List (Stmt ι)) {machine : Machine ι}
    (h : (machine.run stmts).1 ≠ none) :
    ∃ before span e after, stmts = before ++ .print span e :: after ∧
      (machine.run before).1 = none ∧ (machine.run (before ++ [.print span e])).1 ≠ none ∧
      (machine.run stmts).2.store = (e.eval (effects machine.store before).2).2 := by
  induction stmts generalizing machine with
  | nil => exact absurd rfl h
  | cons stmt rest ih =>
    rcases hexec : stmt.exec machine with ⟨- | refusal, next⟩
    · have hrun : machine.run (stmt :: rest) = next.run rest := by rw [run, hexec]
      rw [hrun] at h ⊢
      rcases ih h with ⟨before, span, e, after, rfl, hbefore, hrefused, hstore⟩
      have hnext : next.store = (stmt.effect machine.store).2 := by
        rw [stmt.exec_eq] at hexec
        exact congrArg (fun r => r.2.store) hexec.symm
      refine ⟨stmt :: before, span, e, after, rfl, ?_, ?_, ?_⟩
      · rw [run, hexec]
        exact hbefore
      · rw [List.cons_append, run, hexec]
        exact hrefused
      · rw [hstore, hnext]
        rfl
    · cases stmt with
      | bind s x e => cases hexec
      | print s e =>
        refine ⟨[], s, e, rest, rfl, rfl, ?_, ?_⟩
        · simp [run, hexec]
        · rw [run, hexec]
          exact congrArg (fun r => r.2.store) hexec.symm

/-- What statements do from a store on if the output takes everything. -/
def free (store : Store ι) (stmts : List (Stmt ι)) : Machine ι := (run ⟨store, .unlimited⟩ stmts).2

theorem free_eq (store : Store ι) (stmts : List (Stmt ι)) :
    free store stmts = ⟨(effects store stmts).2, ⟨none, .error, (effects store stmts).1⟩⟩ := by
  rw [free, run_unlimited stmts rfl]
  simp [Sink.unlimited]

/-- The bytes that statements print from a store on if the output takes everything. -/
def output (store : Store ι) (stmts : List (Stmt ι)) : List UInt8 :=
  bytesOf (free store stmts).sink.written

/-- A limit cuts the output off and changes nothing else.  A run is started with any store and with
a sink that accepts `n` more bytes.  The bytes that are accepted are the first `n` of those that a
sink without limit accepts, and the run is refused exactly if this is not all.  A run that is not
refused leaves the same store behind.  One that is refused ends at the first line that does not fit:
what the statements in front of it print fits, together with the line it does not, and the store is
what these statements and then the expression of the line make of it. -/
theorem run_cut_off (program : Program ι) (store : Store ι) (n : Nat) (refusal : Refusal)
    (written : String) :
    let run := run ⟨store, ⟨some n, refusal, written⟩⟩ program.stmts
    bytesOf run.2.sink.written = bytesOf written ++ (output store program.stmts).take n ∧
      run.1 = (if n < (output store program.stmts).length then some refusal else none) ∧
      (run.1 = none → run.2.store = (free store program.stmts).store) ∧
      (run.1 ≠ none → ∃ before span e after, program.stmts = before ++ .print span e :: after ∧
        (output store before).length ≤ n ∧
        n < (output store (before ++ [.print span e])).length ∧
        run.2.store = (e.eval (free store before).store).2) := by
  intro run
  have hlimited : ∀ stmts, (Machine.run ⟨store, ⟨some n, refusal, written⟩⟩ stmts).1
        = (if n < (output store stmts).length then some refusal else none) ∧
      bytesOf (Machine.run ⟨store, ⟨some n, refusal, written⟩⟩ stmts).2.sink.written
        = bytesOf written ++ (output store stmts).take n := by
    intro stmts
    have hsink := run_sink stmts ⟨store, ⟨some n, refusal, written⟩⟩
    rw [hsink.1, hsink.2]
    rw [output, free_eq]
    exact Sink.write_limited (oneByte_effects stmts store) n refusal written
  refine ⟨(hlimited program.stmts).2, (hlimited program.stmts).1, ?_, ?_⟩
  · intro hrun
    rw [free_eq]
    exact run_store program.stmts hrun
  · intro hrun
    rcases exists_refused program.stmts hrun with
      ⟨before, span, e, after, hstmts, hbefore, hrefused, hstore⟩
    refine ⟨before, span, e, after, hstmts, ?_, ?_, ?_⟩
    · apply Nat.le_of_not_lt
      intro hlt
      rw [(hlimited before).1, if_pos hlt] at hbefore
      cases hbefore
    · apply Nat.lt_of_not_le
      intro hle
      rw [(hlimited _).1, if_neg (Nat.not_lt.2 hle)] at hrefused
      exact hrefused rfl
    · rw [free_eq]
      exact hstore

end Machine

/-- A program that prints two lines, and reads a variable without a value in the second one. -/
def twoLines : Program Nat :=
  let here := Span.single .start
  ⟨none, here,
    [.bind here 0 (.lit here 12), .print here (.var here 0), .print here (.var here 1),
      .bind here 0 (.lit here 0)]⟩

/-- A limit between the digit of the second line and its line feed: the digit is accepted, the
variable of the line has been bound, and the last statement has not been executed. -/
theorem run_twoLines :
    let run := Machine.run ⟨.empty, .limited 4 .nothing⟩ twoLines.stmts
    run.1 ≠ none ∧ run.1 = some .nothing ∧
      bytesOf run.2.sink.written = [0x31, 0x32, 0x0a, 0x30] ∧
      (∃ before span e after, twoLines.stmts = before ++ .print span e :: after ∧
        run.2.store = (e.eval (Machine.free .empty before).store).2) ∧
      run.2.store = ⟨(Env.empty.set 0 12).set 1 0, #[.bound 0 12, .unbound 1]⟩ := by
  intro run
  rcases Machine.run_cut_off twoLines .empty 4 .nothing "" with ⟨hwritten, hrefusal, -, hstore⟩
  have hprinted : (Machine.free .empty twoLines.stmts).sink.written = "12\n0\n" := by
    rw [Machine.free_eq]
    simp [effects, twoLines, Stmt.effect, Expr.eval, Store.read, Store.empty, Store.bind,
      Env.get?_set]
    decide
  rw [Machine.output, hprinted] at hwritten hrefusal
  have hrefused : run.1 = some .nothing := hrefusal.trans (by decide)
  have hne : run.1 ≠ none := by simp [hrefused]
  rcases hstore hne with ⟨before, span, e, after, hstmts, -, -, hafter⟩
  refine ⟨hne, hrefused, hwritten.trans (by decide), ⟨before, span, e, after, hstmts, hafter⟩, ?_⟩
  have hfirst : Sink.write (.limited 4 .nothing) ((12 : UInt64).toNat.repr ++ "\n")
      = (none, ⟨some 1, .nothing, "12\n"⟩) := by decide
  have hsecond : Sink.write ⟨some 1, .nothing, "12\n"⟩ (Nat.repr 0 ++ "\n")
      = (some .nothing, ⟨some 0, .nothing, "12\n0"⟩) := by decide
  simp [run, Machine.run, twoLines, Stmt.exec_eq, Stmt.effect, Expr.eval, Store.read, Store.empty,
    Store.bind, Env.get?_set, Sink.write_empty, hfirst, hsecond, -UInt64.reduceToNat]

end LetCalc
