import LetCalc.Proofs.Context.Sharing
import LetCalc.Proofs.Machine.CutOff

/-!
# Contexts do not meet in a machine

Each context has a table of names of its own, so symbols of different contexts are different, even
if their names are not.  A machine keeps the values of variables by their symbols.  It may therefore
execute programs of several contexts in any order: those of one context print the same, and leave
the same values behind, as if the machine had not executed the others.

Main results:

- Definition `Interner.askAll`: calls of any tables, in the given order.
- Theorem `Interner.askAll_sound`: what all calls keep of the tables and of the symbols given out.
- Theorems `effects_frame` and `effects_agrees`: statements change no value of a variable that does
  not occur in them, and depend on none.
- Definition `Machine.runAll`: programs one after another on one machine.
- Theorem `Machine.contexts_do_not_meet`: the programs of one context do what they do alone.
-/

namespace LetCalc

/-! ## Several tables -/

namespace Interner

/-- Asks tables for the symbols of names, in the given order. -/
def askAll (tables : Nat → Interner) : List (Nat × String) → List Symbol × (Nat → Interner)
  | [] => ([], tables)
  | (k, name) :: rest =>
    let (symbol, interner) := (tables k).intern name
    let more := askAll (Function.update tables k interner) rest
    (symbol :: more.1, more.2)

/-- Each table has its own number, and tells its names apart. -/
structure Separate (tables : Nat → Interner) : Prop where
  table : ∀ k, (tables k).table = k
  distinct : ∀ k, (tables k).Distinct

theorem separate_empty : Separate empty := ⟨fun _ => rfl, distinct_empty⟩

/-- Asking one table keeps all tables apart, and each of them only grows. -/
theorem Separate.ask {tables : Nat → Interner} (h : Separate tables) (k : Nat) (name : String) :
    Separate (Function.update tables k ((tables k).add name)) ∧
      ∀ j, (tables j).Grows (Function.update tables k ((tables k).add name) j) := by
  have hstep : ∀ j, (tables j).Grows (Function.update tables k ((tables k).add name) j) := by
    intro j
    by_cases hjk : j = k
    · subst hjk
      rw [Function.update_self]
      exact grows_add _ name
    · rw [Function.update_of_ne hjk]
      exact .refl _
  refine ⟨⟨?_, ?_⟩, hstep⟩
  · intro j
    rcases hstep j with ⟨names, hnames⟩
    rw [hnames, table_addAll, h.table j]
  · intro j
    exact (h.distinct j).grows (hstep j)

/-- Calls keep the tables apart, and each symbol that they give out is in the end the one that its
table has for the name. -/
theorem askAll_sound {tables : Nat → Interner} (h : Separate tables)
    (calls : List (Nat × String)) :
    Separate (askAll tables calls).2 ∧
      (∀ j, (tables j).Grows ((askAll tables calls).2 j)) ∧
      (askAll tables calls).1
        = calls.map (fun call => ((askAll tables calls).2 call.1).symbol call.2) ∧
      ∀ call ∈ calls, call.2 ∈ ((askAll tables calls).2 call.1).indices := by
  induction calls generalizing tables with
  | nil => exact ⟨h, fun _ => .refl _, rfl, by simp⟩
  | cons call rest ih =>
    rcases call with ⟨k, name⟩
    rcases h.ask k name with ⟨hnext, hstep⟩
    rcases ih hnext with ⟨hseparate, hgrows, hsymbols, hmem⟩
    have hgiven : ((askAll tables ((k, name) :: rest)).2 k).Holds ((tables k).symbol name) := by
      refine Holds.grows ?_ (hgrows k)
      rw [Function.update_self]
      exact holds_add _ name
    refine ⟨hseparate, fun j => (hstep j).trans (hgrows j), ?_, ?_⟩
    · rw [List.map_cons]
      exact congrArg₂ _ hgiven.2.symm hsymbols
    · intro call hcall
      rcases List.mem_cons.1 hcall with rfl | hcall
      · exact hgiven.1
      · exact hmem call hcall

/-- The symbols of a table that is apart from others have its number. -/
theorem Separate.table_eq {tables : Nat → Interner} (h : Separate tables) {k : Nat} {x : Symbol}
    (hx : (tables k).Holds x) : x.table = k := by
  rw [← hx.2, table_symbol, h.table k]

/-- Symbols of tables that are apart are the same, and have the same address, exactly if their
tables and their names are the same. -/
theorem Separate.eq_iff {tables : Nat → Interner} (h : Separate tables) {j k : Nat} {x y : Symbol}
    (hx : (tables j).Holds x) (hy : (tables k).Holds y) :
    (x = y ↔ j = k ∧ x.name = y.name) ∧ (x.address = y.address ↔ j = k ∧ x.name = y.name) := by
  by_cases hjk : j = k
  · subst hjk
    simpa using (h.distinct j).eq_iff hx hy
  · have haddress : x.address ≠ y.address := by
      intro he
      have htable : x.table = y.table := congrArg Prod.fst he
      exact hjk (by rw [← h.table_eq hx, htable, h.table_eq hy])
    have hne : x ≠ y := fun he => haddress (congrArg Symbol.address he)
    simp [hjk, haddress, hne]

/-- Symbols that tables were asked for have the names that were asked for, and are the same exactly
if the same table was asked for the same name. -/
theorem askAll_empty (calls : List (Nat × String)) :
    (askAll empty calls).1.length = calls.length ∧
      ∀ a ∈ calls.zip (askAll empty calls).1, a.2.name = a.1.2 ∧
        ∀ b ∈ calls.zip (askAll empty calls).1,
          (a.2 = b.2 ↔ a.1 = b.1) ∧ (a.2.address = b.2.address ↔ a.1 = b.1) := by
  rcases askAll_sound separate_empty calls with ⟨hseparate, -, hgiven, hmem⟩
  have hpair : ∀ a ∈ calls.zip (askAll empty calls).1,
      ((askAll empty calls).2 a.1.1).Holds a.2 ∧ a.2.name = a.1.2 := by
    intro a ha
    have hzip : calls.zip (askAll empty calls).1 = calls.map fun call =>
        (call, ((askAll empty calls).2 call.1).symbol call.2) := by
      rw [hgiven, ← List.zip_map', List.map_id']
    rw [hzip, List.mem_map] at ha
    rcases ha with ⟨call, hcall, rfl⟩
    exact ⟨holds_symbol (hmem call hcall), rfl⟩
  have hlength : (askAll empty calls).1.length = calls.length := by
    rw [hgiven, List.length_map]
  refine ⟨hlength, ?_⟩
  intro a ha
  refine ⟨(hpair a ha).2, ?_⟩
  intro b hb
  have hiff := hseparate.eq_iff (hpair a ha).1 (hpair b hb).1
  rwa [(hpair a ha).2, (hpair b hb).2, ← Prod.ext_iff] at hiff

end Interner

/-! ## Variables that do not occur -/

section Frame

variable {ι : Type} [DecidableEq ι] [Hashable ι]

/-- An expression changes the values of its own variables only. -/
theorem Expr.eval_frame (e : Expr ι) (store : Store ι) {y : ι} (h : y ∉ e.vars) :
    (e.eval store).2.env.get? y = store.env.get? y := by
  induction e generalizing store with
  | lit | hole => rfl
  | var s x =>
    have hne : x ≠ y := fun he => h (List.mem_singleton.2 he.symm)
    rw [eval, Store.env_read, Env.get?_read, if_neg hne]
  | unary s op e ih => exact ih store h
  | binary s op l r ihl ihr =>
    rw [vars, List.mem_append, not_or] at h
    exact (ihr _ h.2).trans (ihl store h.1)

/-- A statement changes the values of its own variables only. -/
theorem Stmt.effect_frame (stmt : Stmt ι) (store : Store ι) {y : ι} (h : y ∉ stmt.names) :
    (stmt.effect store).2.env.get? y = store.env.get? y := by
  cases stmt with
  | bind s x e =>
    rw [names, List.mem_append, not_or] at h
    have hne : x ≠ y := fun he => h.2 (List.mem_singleton.2 he.symm)
    simp only [effect, Store.bind]
    rw [Env.get?_set, if_neg hne]
    exact e.eval_frame store h.1
  | print s e => exact e.eval_frame store h

/-- Statements change the values of their own variables only. -/
theorem effects_frame (stmts : List (Stmt ι)) (store : Store ι) {y : ι}
    (h : y ∉ stmts.flatMap Stmt.names) :
    (effects store stmts).2.env.get? y = store.env.get? y := by
  induction stmts generalizing store with
  | nil => rfl
  | cons stmt rest ih =>
    rw [List.flatMap_cons, List.mem_append, not_or] at h
    exact (ih _ h.2).trans (stmt.effect_frame store h.1)

/-- The variables with the property have the same values, or none in both. -/
def Env.Agree (P : ι → Prop) (env env' : Env ι) : Prop := ∀ x, P x → env.get? x = env'.get? x

variable {P : ι → Prop}

theorem Env.Agree.set {env env' : Env ι} (h : Agree P env env') (x : ι) (v : UInt64) :
    Agree P (env.set x v) (env'.set x v) := by
  intro y hy
  rw [get?_set, get?_set, h y hy]

/-- An expression depends on its own variables only. -/
theorem Expr.eval_agrees (e : Expr ι) {store store' : Store ι} (hP : ∀ x ∈ e.vars, P x)
    (h : Env.Agree P store.env store'.env) :
    (e.eval store).1 = (e.eval store').1 ∧
      Env.Agree P (e.eval store).2.env (e.eval store').2.env := by
  induction e generalizing store store' with
  | lit | hole => exact ⟨rfl, h⟩
  | var s x =>
    have hx : store.env.get? x = store'.env.get? x := h x (hP x (List.mem_singleton.2 rfl))
    simp only [eval, Store.value_read, Store.env_read, Env.value_read]
    refine ⟨congrArg (Option.getD · 0) hx, ?_⟩
    intro y hy
    rw [Env.get?_read, Env.get?_read, hx, h y hy]
  | unary s op e ih =>
    rcases ih hP h with ⟨hvalue, henv⟩
    exact ⟨congrArg op.apply hvalue, henv⟩
  | binary s op l r ihl ihr =>
    rcases ihl (fun x hx => hP x (List.mem_append_left _ hx)) h with ⟨hleft, hstore⟩
    rcases ihr (fun x hx => hP x (List.mem_append_right _ hx)) hstore with ⟨hright, henv⟩
    refine ⟨?_, henv⟩
    simp only [eval]
    rw [hleft, hright]

/-- A statement depends on its own variables only. -/
theorem Stmt.effect_agrees (stmt : Stmt ι) {store store' : Store ι} (hP : ∀ x ∈ stmt.names, P x)
    (h : Env.Agree P store.env store'.env) :
    (stmt.effect store).1 = (stmt.effect store').1 ∧
      Env.Agree P (stmt.effect store).2.env (stmt.effect store').2.env := by
  cases stmt with
  | bind s x e =>
    rcases e.eval_agrees (fun x hx => hP x (List.mem_append_left _ hx)) h with ⟨hvalue, henv⟩
    refine ⟨rfl, ?_⟩
    simp only [effect, Store.bind]
    rw [hvalue]
    exact henv.set x _
  | print s e =>
    rcases e.eval_agrees hP h with ⟨hvalue, henv⟩
    refine ⟨?_, henv⟩
    simp only [effect]
    rw [hvalue]

/-- Statements depend on their own variables only. -/
theorem effects_agrees (stmts : List (Stmt ι)) {store store' : Store ι}
    (hP : ∀ x ∈ stmts.flatMap Stmt.names, P x) (h : Env.Agree P store.env store'.env) :
    (effects store stmts).1 = (effects store' stmts).1 ∧
      Env.Agree P (effects store stmts).2.env (effects store' stmts).2.env := by
  induction stmts generalizing store store' with
  | nil => exact ⟨rfl, h⟩
  | cons stmt rest ih =>
    rw [List.flatMap_cons] at hP
    rcases stmt.effect_agrees (fun x hx => hP x (List.mem_append_left _ hx)) h with
      ⟨hfirst, hstore⟩
    rcases ih (fun x hx => hP x (List.mem_append_right _ hx)) hstore with ⟨hmore, henv⟩
    refine ⟨?_, henv⟩
    simp only [effects]
    rw [hfirst, hmore]

end Frame

/-! ## Programs in a row -/

/-- What came of the execution of one program: whose program it was, the refusal, if output was
refused, and what was written. -/
structure Printout (κ : Type) where
  owner : κ
  refusal : Option Refusal
  text : String

namespace Machine

variable {ι κ : Type} [DecidableEq ι] [Hashable ι]

/-- Executes programs, each with its owner, one after another on one machine. -/
def runAll (machine : Machine ι) : List (κ × Program ι) → List (Printout κ) × Machine ι
  | [] => ([], machine)
  | (owner, program) :: rest =>
    let (refusal, next) := machine.run program.stmts
    let written := next.sink.written.toList.drop machine.sink.written.length
    let more := next.runAll rest
    (⟨owner, refusal, .ofList written⟩ :: more.1, more.2)

/-- If the output takes everything, a program that comes first is not refused, and writes what its
statements print. -/
theorem runAll_cons {machine : Machine ι} (h : machine.sink.room = none) (owner : κ)
    (program : Program ι) (rest : List (κ × Program ι)) :
    ∃ next : Machine ι, next.store = (effects machine.store program.stmts).2 ∧
      next.sink.room = none ∧
      machine.runAll ((owner, program) :: rest)
        = (⟨owner, none, (effects machine.store program.stmts).1⟩ :: (next.runAll rest).1,
          (next.runAll rest).2) := by
  have hrun := run_unlimited program.stmts h
  refine ⟨(machine.run program.stmts).2, ?_, ?_, ?_⟩
  · rw [hrun]
  · rw [hrun]
    exact h
  · rw [runAll, hrun]
    simp only [String.toList_append, ← String.length_toList, List.drop_left, String.ofList_toList]

theorem refusal_runAll (programs : List (κ × Program ι)) {machine : Machine ι}
    (h : machine.sink.room = none) :
    ∀ printout ∈ (machine.runAll programs).1, printout.refusal = none := by
  induction programs generalizing machine with
  | nil => simp [runAll]
  | cons first rest ih =>
    rcases runAll_cons h first.1 first.2 rest with ⟨next, -, hroom, hrun⟩
    rw [hrun, List.forall_mem_cons]
    exact ⟨rfl, ih hroom⟩

/-- Programs of one owner, whose variables occur in no program of another owner, print the same and
leave the same values behind with and without the programs of the others. -/
theorem runAll_agrees [DecidableEq κ] {P : ι → Prop} {owner : κ} (programs : List (κ × Program ι))
    (hown : ∀ p ∈ programs, p.1 = owner → ∀ x ∈ p.2.names, P x)
    (hother : ∀ p ∈ programs, p.1 ≠ owner → ∀ x ∈ p.2.names, ¬ P x) {machine machine' : Machine ι}
    (h : Env.Agree P machine.store.env machine'.store.env) (hroom : machine.sink.room = none)
    (hroom' : machine'.sink.room = none) :
    (machine.runAll programs).1.filter (·.owner = owner)
        = (machine'.runAll (programs.filter (·.1 = owner))).1 ∧
      Env.Agree P (machine.runAll programs).2.store.env
        (machine'.runAll (programs.filter (·.1 = owner))).2.store.env := by
  induction programs generalizing machine machine' with
  | nil => exact ⟨rfl, h⟩
  | cons first rest ih =>
    rcases first with ⟨label, program⟩
    rw [List.forall_mem_cons] at hown hother
    rcases runAll_cons hroom label program rest with ⟨next, hstore, hnext, hrun⟩
    rw [hrun]
    by_cases hlabel : label = owner
    · rcases runAll_cons hroom' label program (rest.filter (·.1 = owner)) with
        ⟨next', hstore', hnext', hrun'⟩
      rw [List.filter_cons_of_pos (by simpa using hlabel),
        List.filter_cons_of_pos (by simpa using hlabel), hrun']
      rcases effects_agrees program.stmts (hown.1 hlabel) h with ⟨htext, henv⟩
      rw [← hstore, ← hstore'] at henv
      rcases ih hown.2 hother.2 henv hnext hnext' with ⟨hprinted, hvalues⟩
      refine ⟨?_, hvalues⟩
      rw [hprinted, htext]
    · -- A program of another owner leaves the variables of this one as they are.
      have hkept : Env.Agree P next.store.env machine'.store.env := by
        intro x hx
        have hnot : x ∉ program.names := fun hmem => hother.1 hlabel x hmem hx
        rw [hstore, effects_frame program.stmts machine.store hnot, h x hx]
      rw [List.filter_cons_of_neg (by simpa using hlabel),
        List.filter_cons_of_neg (by simpa using hlabel)]
      exact ih hown.2 hother.2 hkept hnext hroom'

end Machine

/-! ## Programs of several contexts -/

/-- The program in an answer, if it is one. -/
def Reply.program? {ι : Type} : Reply ι → Option (Program ι)
  | .program p => some p
  | _ => none

namespace Session

variable {κ : Type}

/-- A session may start with any names in its table. -/
theorem sound_start (k : Nat) (names : List String) (diagnostics : Array Diagnostic) :
    (start ⟨(Interner.empty k).addAll names, diagnostics⟩ : Session κ).Sound :=
  ⟨(Interner.distinct_empty k).addAll names, by simp [start]⟩

variable [DecidableEq κ]

/-- Sessions keep the tables apart with which they start. -/
theorem separate_run (names : Nat → List String) (diagnostics : Nat → Array Diagnostic)
    (calls : Nat → List (κ × Call)) :
    Interner.Separate fun k =>
      let session := start ⟨(Interner.empty k).addAll (names k), diagnostics k⟩
      (session.run (calls k)).2.context.interner := by
  constructor
  · intro k
    rcases (run_sound (sound_start k (names k) (diagnostics k)) (calls k)).2.1 with ⟨more, hmore⟩
    simp only [hmore, Interner.table_addAll]
    exact Interner.table_addAll ..
  · intro k
    exact (run_sound (sound_start k (names k) (diagnostics k)) (calls k)).1.distinct

/-- The programs that were parsed in a session, in the order of the calls. -/
def programs (s : Session κ) (calls : List (κ × Call)) : List (Program Symbol) :=
  (s.run calls).1.filterMap fun entry => entry.reply.program?

/-- The symbols in the programs of a session are those of its table. -/
theorem holds_of_mem_programs {s : Session κ} (h : s.Sound) {calls : List (κ × Call)}
    {program : Program Symbol} (hprogram : program ∈ s.programs calls) {x : Symbol}
    (hx : x ∈ program.names) : (s.run calls).2.context.interner.Holds x := by
  rcases List.mem_filterMap.1 hprogram with ⟨entry, hentry, hreply⟩
  apply (run_sound h calls).2.2 entry hentry x
  unfold Reply.program? at hreply
  split at hreply
  · next p heq =>
    rw [heq]
    rw [Option.some.inj hreply]
    exact hx
  · cases hreply

end Session

/-- Contexts do not meet in a machine.  Tables with different numbers are asked for symbols in any
order: each symbol has the name that was asked for, and two of them are the same, and have the same
address, exactly if the same table was asked for the same name.  In contexts with such tables, which
have given out symbols of any names and have any diagnostics, any readers make any calls.  Some of
the programs that are parsed are then executed, as often and in whatever order, on one machine, with
any values at first and an output that takes everything.  Then no program is refused, and the
programs of each context print the same, and leave the same values of its symbols behind, as if the
others had not been executed. -/
theorem Machine.contexts_do_not_meet {κ : Type} [DecidableEq κ] :
    (∀ calls : List (Nat × String),
      let given := (Interner.askAll .empty calls).1
      given.length = calls.length ∧
        ∀ a ∈ calls.zip given, a.2.name = a.1.2 ∧
          ∀ b ∈ calls.zip given,
            (a.2 = b.2 ↔ a.1 = b.1) ∧ (a.2.address = b.2.address ↔ a.1 = b.1)) ∧
    ∀ (names : Nat → List String) (diagnostics : Nat → Array Diagnostic)
      (calls : Nat → List (κ × Call)) (picks : List (Nat × Nat)) (store : Store Symbol)
      (refusal : Refusal) (written : String),
      let session k := Session.start ⟨(Interner.empty k).addAll (names k), diagnostics k⟩
      let programs := picks.filterMap fun (k, i) =>
        (((session k).programs (calls k))[i]?).map fun program => (k, program)
      let all := runAll ⟨store, ⟨none, refusal, written⟩⟩ programs
      (∀ printout ∈ all.1, printout.refusal = none) ∧
        (∀ p ∈ programs, ∀ x ∈ p.2.names, ∀ q ∈ programs, ∀ y ∈ q.2.names,
          (x = y ↔ p.1 = q.1 ∧ x.name = y.name) ∧
            (x.address = y.address ↔ p.1 = q.1 ∧ x.name = y.name)) ∧
        ∀ k,
          let alone := runAll ⟨store, ⟨none, refusal, written⟩⟩ (programs.filter (·.1 = k))
          all.1.filter (·.owner = k) = alone.1 ∧
            ∀ x : Symbol, x.table = k →
              all.2.store.env.get? x = alone.2.store.env.get? x := by
  refine ⟨Interner.askAll_empty, ?_⟩
  intro names diagnostics calls picks store refusal written session programs all
  have hsound : ∀ k, (session k).Sound := fun k => Session.sound_start k (names k) (diagnostics k)
  have hseparate : Interner.Separate fun k =>
      ((session k).run (calls k)).2.context.interner :=
    Session.separate_run names diagnostics calls
  have hheld : ∀ p ∈ programs, ∀ x ∈ p.2.names,
      ((session p.1).run (calls p.1)).2.context.interner.Holds x := by
    intro p hp x hx
    rcases List.mem_filterMap.1 hp with ⟨⟨k, i⟩, -, hpick⟩
    rcases Option.map_eq_some_iff.1 hpick with ⟨program, hprogram, rfl⟩
    exact Session.holds_of_mem_programs (hsound k) (List.mem_of_getElem? hprogram) hx
  refine ⟨refusal_runAll programs rfl, ?_, ?_⟩
  · intro p hp x hx q hq y hy
    exact hseparate.eq_iff (hheld p hp x hx) (hheld q hq y hy)
  · intro k
    have htable : ∀ p ∈ programs, ∀ x ∈ p.2.names, x.table = p.1 := by
      intro p hp x hx
      exact hseparate.table_eq (hheld p hp x hx)
    have hown : ∀ p ∈ programs, p.1 = k → ∀ x ∈ p.2.names, x.table = k := by
      intro p hp hk x hx
      rw [htable p hp x hx, hk]
    have hother : ∀ p ∈ programs, p.1 ≠ k → ∀ x ∈ p.2.names, ¬ x.table = k := by
      intro p hp hk x hx
      rwa [htable p hp x hx]
    have hsame : Env.Agree (fun x : Symbol => x.table = k) store.env store.env := fun _ _ => rfl
    exact runAll_agrees programs hown hother hsame rfl rfl

end LetCalc
