import LetCalc.Proofs.Program.Source
import LetCalc.Proofs.Token.LongestMatch
import Mathlib.Logic.Function.Basic

/-!
# Sharing a context

Any number of lexers and parsers may use one context, in any order.  They share its table of names
and its diagnostics, but no answer depends on what the others did: a reader gives the same tokens
and trees, and reports the same, as it does alone in a fresh context.  The table tells names apart
by their indices in every state that can come about, so a word can be told to be a keyword by the
identity of its symbol.

Main results:

- Theorem `Interner.Distinct.add`: a table gives each name an index of its own, and keeps it.
- Definition `Session.run`: calls of any readers over one context, in the given order.
- Theorem `Context.call_agrees`: one call answers alike in any two contexts.
- Theorem `Session.run_sound`: what all calls keep of the table and of the symbols given out.
- Theorem `Session.readers_do_not_interfere`: each reader answers as it does alone.
-/

namespace LetCalc

/-! ## Tables that tell names apart -/

/-- What a symbol is told apart by: the table and the index in it. -/
def Symbol.address (symbol : Symbol) : Nat × Nat := (symbol.table, symbol.index)

namespace Interner

/-- Each name of the table has an index of its own. -/
structure Distinct (interner : Interner) : Prop where
  lt_size : ∀ x ∈ interner.indices, (interner.symbol x).index < interner.indices.size
  index_inj : ∀ x ∈ interner.indices, ∀ y ∈ interner.indices,
    (interner.symbol x).index = (interner.symbol y).index → x = y

theorem distinct_empty (table : Nat) : (empty table).Distinct :=
  ⟨by simp [empty], by simp [empty]⟩

/-- A name that is added gets an index that no other name has. -/
theorem Distinct.add {interner : Interner} (h : interner.Distinct) (name : String) :
    (interner.add name).Distinct := by
  by_cases hname : name ∈ interner.indices
  · simpa [Interner.add, hname] using h
  have hsize : (interner.add name).indices.size = interner.indices.size + 1 := by
    simp [Interner.add, hname, Std.HashMap.size_insert]
  have hnew : ((interner.add name).symbol name).index = interner.indices.size := by
    rw [symbol_add_self]
    exact Std.HashMap.getD_eq_fallback hname
  have hold : ∀ x ∈ interner.indices, ((interner.add name).symbol x).index
      = (interner.symbol x).index := fun x hx => by rw [symbol_add_of_mem hx]
  constructor
  · intro x hx
    rw [hsize]
    rcases mem_add.1 hx with rfl | hx'
    · rw [hnew]
      exact Nat.lt_succ_self _
    · rw [hold x hx']
      exact Nat.lt_succ_of_lt (h.lt_size x hx')
  · intro x hx y hy hindex
    rcases mem_add.1 hx with rfl | hx'
    · rcases mem_add.1 hy with rfl | hy'
      · rfl
      · rw [hnew, hold y hy'] at hindex
        exact absurd hindex (Nat.ne_of_gt (h.lt_size y hy'))
    · rcases mem_add.1 hy with rfl | hy'
      · rw [hnew, hold x hx'] at hindex
        exact absurd hindex (Nat.ne_of_lt (h.lt_size x hx'))
      · rw [hold x hx', hold y hy'] at hindex
        exact h.index_inj x hx' y hy' hindex

theorem Distinct.addAll {interner : Interner} (h : interner.Distinct) (names : List String) :
    (interner.addAll names).Distinct := by
  induction names generalizing interner with
  | nil => exact h
  | cons name rest ih => exact ih (h.add name)

theorem addAll_append (interner : Interner) (xs ys : List String) :
    interner.addAll (xs ++ ys) = (interner.addAll xs).addAll ys := List.foldl_append

theorem mem_addAll {interner : Interner} {names : List String} {x : String} :
    x ∈ (interner.addAll names).indices ↔ x ∈ names ∨ x ∈ interner.indices := by
  induction names generalizing interner with
  | nil => simp [addAll]
  | cons name rest ih =>
    have hstep : interner.addAll (name :: rest) = (interner.add name).addAll rest := rfl
    rw [hstep, ih, mem_add, List.mem_cons]
    tauto

/-- The table has given out the symbol. -/
def Holds (interner : Interner) (symbol : Symbol) : Prop :=
  symbol.name ∈ interner.indices ∧ interner.symbol symbol.name = symbol

/-- A table keeps the symbols that it has given out. -/
theorem Holds.addAll {interner : Interner} {symbol : Symbol} (h : interner.Holds symbol)
    (names : List String) : (interner.addAll names).Holds symbol :=
  ⟨mem_addAll.2 (Or.inr h.1), (symbol_addAll h.1 names).trans h.2⟩

theorem holds_symbol {interner : Interner} {x : String} (h : x ∈ interner.indices) :
    interner.Holds (interner.symbol x) := ⟨h, rfl⟩

/-- Symbols of one table are the same exactly if their names are, and already if their addresses
are. -/
theorem Distinct.eq_iff {interner : Interner} (h : interner.Distinct) {x y : Symbol}
    (hx : interner.Holds x) (hy : interner.Holds y) :
    (x = y ↔ x.name = y.name) ∧ (x.address = y.address ↔ x.name = y.name) := by
  have hname : x.name = y.name → x = y := fun hname => by rw [← hx.2, ← hy.2, hname]
  refine ⟨⟨congrArg Symbol.name, hname⟩, ?_, fun hxy => congrArg Symbol.address (hname hxy)⟩
  intro haddress
  apply h.index_inj x.name hx.1 y.name hy.1
  rw [hx.2, hy.2]
  exact congrArg Prod.snd haddress

end Interner

/-! ## Readers and their calls -/

/-- The symbols of the keywords, which a reader takes from the table when it is opened. -/
structure Keywords where
  bind : Symbol
  print : Symbol

/-- What the word with the given symbol is, told by the address of the symbol. -/
def Keywords.kind (words : Keywords) (symbol : Symbol) : Kind Symbol :=
  if symbol.address = words.bind.address then .keywordLet
  else if symbol.address = words.print.address then .keywordPrint
  else .identifier symbol

/-- What reads a source. -/
inductive Source where
  | lexer (lexer : Lexer)
  | parser (parser : Parser)

/-- A lexer or a parser, with the symbols of the keywords. -/
structure Reader where
  words : Keywords
  source : Source

/-- The calls of a reader. -/
inductive Call where
  | openLexer (path : Option String) (input : Input)
  | openParser (path : Option String) (input : Input)
  | lex
  | parseExpression
  | parseProgram

/-- The answer to a call. -/
inductive Reply (ι : Type) where
  | opened
  | view (view : View ι)
  | expression (e : Expr ι)
  | program (program : Program ι)
  /-- There is no such reader. -/
  | refused

namespace Reply

variable {ι κ : Type}

/-- The same answer over other names. -/
def map (f : ι → κ) : Reply ι → Reply κ
  | opened => opened
  | view v => view (v.map f)
  | expression e => expression (e.map f)
  | program p => program (p.map f)
  | refused => refused

/-- The names in an answer. -/
def names : Reply ι → List ι
  | view ⟨some (.identifier x), _⟩ => [x]
  | expression e => e.vars
  | program p => p.names
  | _ => []

end Reply

namespace Context

/-- Takes the symbols of the keywords from the table. -/
def keywords (ctx : Context) : Keywords × Context :=
  let (bind, ctx) := ctx.intern "let"
  let (print, ctx) := ctx.intern "print"
  (⟨bind, print⟩, ctx)

/-- One call of a reader, if there is one, and the reader after it. -/
def call (ctx : Context) (reader : Option Reader) :
    Call → Outcome (Reply Symbol × Option Reader)
  | .openLexer path input =>
    let (words, ctx) := ctx.keywords
    let opened := ctx.openLexer path input
    ⟨(.opened, some ⟨words, .lexer opened.value⟩), opened.journal, opened.context⟩
  | .openParser path input =>
    let (words, ctx) := ctx.keywords
    let opened := ctx.openParser path input
    ⟨(.opened, some ⟨words, .parser opened.value⟩), opened.journal, opened.context⟩
  | .lex =>
    match reader with
    | some ⟨words, .lexer lexer⟩ =>
      let lexed := ctx.lex lexer
      ⟨(.view lexed.value.1, some ⟨words, .lexer lexed.value.2⟩), lexed.journal, lexed.context⟩
    | _ => ⟨(.refused, reader), [], ctx⟩
  | .parseExpression =>
    match reader with
    | some ⟨words, .parser parser⟩ =>
      let parsed := ctx.parseExpression parser
      ⟨(.expression parsed.value.1, some ⟨words, .parser parsed.value.2⟩), parsed.journal,
        parsed.context⟩
    | _ => ⟨(.refused, reader), [], ctx⟩
  | .parseProgram =>
    match reader with
    | some ⟨words, .parser parser⟩ =>
      let parsed := ctx.parseProgram parser
      ⟨(.program parsed.value.1, some ⟨words, .parser parsed.value.2⟩), parsed.journal,
        parsed.context⟩
    | _ => ⟨(.refused, reader), [], ctx⟩

end Context

/-! ## Sessions -/

/-- A context and the readers that use it. -/
structure Session (κ : Type) where
  context : Context
  readers : κ → Option Reader

/-- What a call came to: who made it, the answer, and what was reported. -/
structure Entry (κ ι : Type) where
  reader : κ
  reply : Reply ι
  reported : List Diagnostic

/-- The same entry over other names. -/
def Entry.map {κ ι μ : Type} (f : ι → μ) (entry : Entry κ ι) : Entry κ μ :=
  ⟨entry.reader, entry.reply.map f, entry.reported⟩

/-- Reports do not depend on names. -/
theorem Entry.flatMap_reported_map {κ ι μ : Type} (f : ι → μ) (entries : List (Entry κ ι)) :
    (entries.map (Entry.map f)).flatMap Entry.reported = entries.flatMap Entry.reported :=
  List.flatMap_map ..

namespace Session

variable {κ : Type} [DecidableEq κ]

/-- A context that nobody reads in yet. -/
def start (ctx : Context) : Session κ := ⟨ctx, fun _ => none⟩

/-- A call of the reader with the given label. -/
def step (s : Session κ) (id : κ) (call : Call) : Entry κ Symbol × Session κ :=
  let outcome := s.context.call (s.readers id) call
  (⟨id, outcome.value.1, outcome.context.diagnostics.toList.drop s.context.diagnostics.size⟩,
    ⟨outcome.context, Function.update s.readers id outcome.value.2⟩)

/-- Calls of any readers, in the given order. -/
def run (s : Session κ) : List (κ × Call) → List (Entry κ Symbol) × Session κ
  | [] => ([], s)
  | (id, call) :: rest =>
    let first := s.step id call
    let more := first.2.run rest
    (first.1 :: more.1, more.2)

end Session

/-! ## One call -/

/-- Readers of the same source differ in the symbols of their keywords only. -/
theorem Reader.same_source {reader reader' : Option Reader}
    (h : reader.map source = reader'.map source) :
    (reader = none ∧ reader' = none) ∨
      ∃ words words' source, reader = some ⟨words, source⟩ ∧ reader' = some ⟨words', source⟩ := by
  cases reader with
  | none => exact Or.inl ⟨rfl, Option.map_eq_none_iff.1 h.symm⟩
  | some reader =>
    rcases Option.map_eq_some_iff.1 h.symm with ⟨other, rfl, hsource⟩
    exact Or.inr ⟨reader.words, other.words, reader.source, rfl, by rw [← hsource]⟩

namespace Context

/-- A call appends to the diagnostics, and neither the answer nor what is appended depends on the
context or on the symbols of the keywords. -/
theorem call_agrees (ctx ctx' : Context) {reader reader' : Option Reader}
    (h : reader.map Reader.source = reader'.map Reader.source) (call : Call) :
    (ctx.call reader call).value.1.map Symbol.name
        = (ctx'.call reader' call).value.1.map Symbol.name ∧
      (ctx.call reader call).value.2.map Reader.source
        = (ctx'.call reader' call).value.2.map Reader.source ∧
      ∃ ds, (ctx.call reader call).context.diagnostics.toList = ctx.diagnostics.toList ++ ds ∧
        (ctx'.call reader' call).context.diagnostics.toList = ctx'.diagnostics.toList ++ ds := by
  have hnothing : ∀ c : Context, c.diagnostics.toList = c.diagnostics.toList ++ [] :=
    fun c => (List.append_nil _).symm
  cases call with
  | openLexer path input =>
    exact ⟨rfl, rfl, _, diagnostics_record _ path _, diagnostics_record _ path _⟩
  | openParser path input =>
    exact ⟨rfl, rfl, _, diagnostics_record _ path _, diagnostics_record _ path _⟩
  | lex =>
    rcases Reader.same_source h with ⟨rfl, rfl⟩ | ⟨words, words', lexer | parser, rfl, rfl⟩
    · exact ⟨rfl, h, [], hnothing ctx, hnothing ctx'⟩
    · refine ⟨?_, rfl, _, diagnostics_record _ _ _, diagnostics_record _ _ _⟩
      exact congrArg Reply.view ((Interner.map_name_internView ..).trans
        (Interner.map_name_internView ..).symm)
    · exact ⟨rfl, h, [], hnothing ctx, hnothing ctx'⟩
  | parseExpression =>
    rcases Reader.same_source h with ⟨rfl, rfl⟩ | ⟨words, words', lexer | parser, rfl, rfl⟩
    · exact ⟨rfl, h, [], hnothing ctx, hnothing ctx'⟩
    · exact ⟨rfl, h, [], hnothing ctx, hnothing ctx'⟩
    · refine ⟨?_, rfl, _, diagnostics_record _ _ _, diagnostics_record _ _ _⟩
      have hnames : ∀ interner : Interner,
          (parser.expression.1.map interner.symbol).map Symbol.name = parser.expression.1 :=
        fun interner => Expr.map_map_of_leftInverse interner.name_symbol _
      exact congrArg Reply.expression ((hnames _).trans (hnames _).symm)
  | parseProgram =>
    rcases Reader.same_source h with ⟨rfl, rfl⟩ | ⟨words, words', lexer | parser, rfl, rfl⟩
    · exact ⟨rfl, h, [], hnothing ctx, hnothing ctx'⟩
    · exact ⟨rfl, h, [], hnothing ctx, hnothing ctx'⟩
    · refine ⟨?_, rfl, _, diagnostics_record _ _ _, diagnostics_record _ _ _⟩
      have hnames : ∀ interner : Interner,
          (parser.program.1.map interner.symbol).map Symbol.name = parser.program.1 :=
        fun interner => Program.map_map_of_leftInverse interner.name_symbol _
      exact congrArg Reply.program ((hnames _).trans (hnames _).symm)

end Context

namespace Interner

/-- The later table is the earlier one with more names. -/
def Grows (earlier later : Interner) : Prop := ∃ names, later = earlier.addAll names

theorem Grows.refl (interner : Interner) : interner.Grows interner := ⟨[], rfl⟩

theorem Grows.trans {a b c : Interner} (h : a.Grows b) (h' : b.Grows c) : a.Grows c := by
  rcases h with ⟨xs, rfl⟩
  rcases h' with ⟨ys, rfl⟩
  exact ⟨xs ++ ys, (addAll_append a xs ys).symm⟩

theorem grows_add (interner : Interner) (name : String) : interner.Grows (interner.add name) :=
  ⟨[name], rfl⟩

theorem Distinct.grows {earlier later : Interner} (h : earlier.Distinct)
    (hgrows : earlier.Grows later) : later.Distinct := by
  rcases hgrows with ⟨names, rfl⟩
  exact h.addAll names

theorem Holds.grows {earlier later : Interner} {symbol : Symbol} (h : earlier.Holds symbol)
    (hgrows : earlier.Grows later) : later.Holds symbol := by
  rcases hgrows with ⟨names, rfl⟩
  exact h.addAll names

/-- A name that is added has been given its symbol. -/
theorem holds_add (interner : Interner) (name : String) :
    (interner.add name).Holds (interner.symbol name) :=
  ⟨mem_add.2 (Or.inl rfl), symbol_add_self interner name⟩

/-- The symbol of a view is one that the table has given out. -/
theorem holds_internView (interner : Interner) (view : View String) :
    interner.Grows (interner.internView view).2 ∧
      ∀ x ∈ (Reply.view (interner.internView view).1).names,
        (interner.internView view).2.Holds x := by
  rcases view with ⟨- | kind, span⟩
  · exact ⟨.refl interner, by simp [internView, View.map, Reply.names]⟩
  cases kind with
  | identifier name =>
    refine ⟨grows_add interner name, ?_⟩
    intro x hx
    obtain rfl := List.mem_singleton.1 hx
    exact holds_symbol (mem_add.2 (Or.inl rfl))
  | _ => exact ⟨.refl interner, by simp [internView, View.map, Kind.map, Reply.names]⟩

/-- The symbols of names that were added are those that the table has given out. -/
theorem holds_of_mem_map {interner : Interner} {names : List String} {x : Symbol}
    (h : x ∈ names.map (interner.addAll names).symbol) : (interner.addAll names).Holds x := by
  rcases List.mem_map.1 h with ⟨name, hname, rfl⟩
  exact holds_symbol (mem_addAll.2 (Or.inl hname))

end Interner

/-- The words are those of the table. -/
structure Keywords.HeldBy (words : Keywords) (interner : Interner) : Prop where
  bind : interner.Holds words.bind
  print : interner.Holds words.print
  bind_name : words.bind.name = "let"
  print_name : words.print.name = "print"

theorem Keywords.HeldBy.grows {words : Keywords} {earlier later : Interner}
    (h : words.HeldBy earlier) (hgrows : earlier.Grows later) : words.HeldBy later :=
  ⟨h.bind.grows hgrows, h.print.grows hgrows, h.bind_name, h.print_name⟩

/-- A word is told by the address of its symbol to be what it is. -/
theorem Keywords.HeldBy.kind_eq {words : Keywords} {interner : Interner} (h : words.HeldBy interner)
    (hdistinct : interner.Distinct) {word : String} (hword : word ∈ interner.indices) :
    words.kind (interner.symbol word) = (Kind.ofWord word).map interner.symbol := by
  have hsymbol := Interner.holds_symbol hword
  have hbind := (hdistinct.eq_iff hsymbol h.bind).2
  have hprint := (hdistinct.eq_iff hsymbol h.print).2
  rw [Interner.name_symbol, h.bind_name] at hbind
  rw [Interner.name_symbol, h.print_name] at hprint
  by_cases hlet : word = "let"
  · rw [kind, if_pos (hbind.2 hlet)]
    simp [Kind.ofWord, hlet, Kind.map]
  · rw [kind, if_neg (mt hbind.1 hlet)]
    by_cases hpr : word = "print"
    · rw [if_pos (hprint.2 hpr)]
      simp [Kind.ofWord, hpr, Kind.map]
    · rw [if_neg (mt hprint.1 hpr)]
      simp [Kind.ofWord, hlet, hpr, Kind.map]

namespace Context

/-- The symbols that are taken for the keywords are those of the table. -/
theorem heldBy_keywords (ctx : Context) :
    ctx.interner.Grows ctx.keywords.2.interner ∧
      ctx.keywords.1.HeldBy ctx.keywords.2.interner := by
  have hfirst := ctx.interner.grows_add "let"
  have hsecond := (ctx.interner.add "let").grows_add "print"
  refine ⟨hfirst.trans hsecond, ?_⟩
  exact ⟨(ctx.interner.holds_add "let").grows hsecond, (ctx.interner.add "let").holds_add "print",
    rfl, rfl⟩

/-- A call only adds names to the table, and gives out symbols of the table. -/
theorem call_holds (ctx : Context) {reader : Option Reader}
    (h : ∀ r ∈ reader, r.words.HeldBy ctx.interner) (call : Call) :
    let outcome := ctx.call reader call
    ctx.interner.Grows outcome.context.interner ∧
      (∀ x ∈ outcome.value.1.names, outcome.context.interner.Holds x) ∧
      ∀ r ∈ outcome.value.2, r.words.HeldBy outcome.context.interner := by
  have hopened : ∀ r : Reader, r.words = ctx.keywords.1 →
      ∀ r' ∈ some r, r'.words.HeldBy ctx.keywords.2.interner := by
    intro r hwords r' hr'
    cases hr'
    rw [hwords]
    exact ctx.heldBy_keywords.2
  have hkept : ∀ {words : Keywords} {source source' : Source} {later : Interner},
      reader = some ⟨words, source⟩ → ctx.interner.Grows later →
      ∀ r ∈ some (Reader.mk words source'), r.words.HeldBy later := by
    intro words source source' later hreader hgrows r hr
    cases hr
    exact (h _ hreader).grows hgrows
  cases call with
  | openLexer path input =>
    exact ⟨ctx.heldBy_keywords.1, by simp [call, Reply.names], hopened _ rfl⟩
  | openParser path input =>
    exact ⟨ctx.heldBy_keywords.1, by simp [call, Reply.names], hopened _ rfl⟩
  | lex =>
    rcases reader with - | ⟨words, lexer | parser⟩
    · exact ⟨.refl _, by simp [call, Reply.names], h⟩
    · have hview := ctx.interner.holds_internView lexer.next.1
      exact ⟨hview.1, hview.2, hkept rfl hview.1⟩
    · exact ⟨.refl _, by simp [call, Reply.names], h⟩
  | parseExpression =>
    rcases reader with - | ⟨words, lexer | parser⟩
    · exact ⟨.refl _, by simp [call, Reply.names], h⟩
    · exact ⟨.refl _, by simp [call, Reply.names], h⟩
    · have hgrows : ctx.interner.Grows (ctx.interner.addAll parser.expression.1.vars) := ⟨_, rfl⟩
      refine ⟨hgrows, ?_, hkept rfl hgrows⟩
      intro x hx
      exact Interner.holds_of_mem_map (Expr.vars_map _ parser.expression.1 ▸ hx)
  | parseProgram =>
    rcases reader with - | ⟨words, lexer | parser⟩
    · exact ⟨.refl _, by simp [call, Reply.names], h⟩
    · exact ⟨.refl _, by simp [call, Reply.names], h⟩
    · have hgrows : ctx.interner.Grows (ctx.interner.addAll parser.program.1.names) := ⟨_, rfl⟩
      refine ⟨hgrows, ?_, hkept rfl hgrows⟩
      intro x hx
      exact Interner.holds_of_mem_map (Program.names_map _ parser.program.1 ▸ hx)

end Context

/-! ## All calls -/

namespace Session

variable {κ : Type} [DecidableEq κ]

/-- A call appends what it reports to the diagnostics. -/
theorem diagnostics_step (s : Session κ) (id : κ) (call : Call) :
    (s.step id call).2.context.diagnostics.toList
      = s.context.diagnostics.toList ++ (s.step id call).1.reported := by
  have hself : (s.readers id).map Reader.source = (s.readers id).map Reader.source := rfl
  rcases (s.context.call_agrees s.context hself call).2.2 with ⟨ds, hds, -⟩
  have hafter : (s.step id call).2.context.diagnostics.toList = _ := hds
  have hreported : (s.step id call).1.reported = ds := by
    simp only [step]
    rw [hds, ← Array.length_toList, List.drop_left]
  rw [hafter, hreported]

/-- The diagnostics after some calls are those before, and what the calls report, in order. -/
theorem diagnostics_run (s : Session κ) (calls : List (κ × Call)) :
    (s.run calls).2.context.diagnostics.toList
      = s.context.diagnostics.toList ++ (s.run calls).1.flatMap Entry.reported := by
  induction calls generalizing s with
  | nil => exact (List.append_nil _).symm
  | cons first rest ih =>
    rw [run, ih, diagnostics_step, List.flatMap_cons, List.append_assoc]

/-- A call of a reader comes to the same in two sessions in which the reader has the same source,
and leaves it with the same source in both. -/
theorem step_agrees {s s' : Session κ} {id : κ}
    (h : (s.readers id).map Reader.source = (s'.readers id).map Reader.source) (call : Call) :
    (s.step id call).1.map Symbol.name = (s'.step id call).1.map Symbol.name ∧
      ((s.step id call).2.readers id).map Reader.source
        = ((s'.step id call).2.readers id).map Reader.source := by
  rcases s.context.call_agrees s'.context h call with ⟨hreply, hsource, ds, hds, hds'⟩
  constructor
  · simp only [step, Entry.map]
    rw [hreply, hds, hds', ← Array.length_toList, ← Array.length_toList, List.drop_left,
      List.drop_left]
  · simpa [step] using hsource

/-- The calls of one reader come to the same with and without those of the others. -/
theorem run_agrees {s s' : Session κ} {id : κ}
    (h : (s.readers id).map Reader.source = (s'.readers id).map Reader.source)
    (calls : List (κ × Call)) :
    ((s.run calls).1.filter (·.reader = id)).map (Entry.map Symbol.name)
      = (s'.run (calls.filter (·.1 = id))).1.map (Entry.map Symbol.name) := by
  induction calls generalizing s s' with
  | nil => rfl
  | cons first rest ih =>
    rcases first with ⟨other, call⟩
    by_cases hid : other = id
    · subst hid
      rcases step_agrees h call with ⟨hentry, hsource⟩
      have hmine : (s.step other call).1.reader = other := rfl
      rw [List.filter_cons_of_pos (by simp), run, run, List.filter_cons_of_pos (by simp [hmine]),
        List.map_cons, List.map_cons, hentry, ih hsource]
    · -- A call of another reader leaves this one as it is.
      have hother : (s.step other call).1.reader ≠ id := hid
      have hkept : (s.step other call).2.readers id = s.readers id :=
        Function.update_of_ne (Ne.symm hid) ..
      rw [List.filter_cons_of_neg (by simpa using hid), run,
        List.filter_cons_of_neg (by simpa using hother)]
      exact ih (hkept ▸ h)

/-- The table tells its names apart, and all readers have its symbols of the keywords. -/
structure Sound (s : Session κ) : Prop where
  distinct : s.context.interner.Distinct
  words : ∀ id, ∀ r ∈ s.readers id, r.words.HeldBy s.context.interner

theorem step_sound {s : Session κ} (h : s.Sound) (id : κ) (call : Call) :
    (s.step id call).2.Sound ∧
      s.context.interner.Grows (s.step id call).2.context.interner ∧
      ∀ x ∈ (s.step id call).1.reply.names, (s.step id call).2.context.interner.Holds x := by
  rcases s.context.call_holds (h.words id) call with ⟨hgrows, hreply, hwords⟩
  refine ⟨⟨h.distinct.grows hgrows, ?_⟩, hgrows, hreply⟩
  intro other r hr
  by_cases hid : other = id
  · subst hid
    have hreader : (s.step other call).2.readers other
        = (s.context.call (s.readers other) call).value.2 := Function.update_self ..
    rw [hreader] at hr
    exact hwords r hr
  · have hreader : (s.step id call).2.readers other = s.readers other :=
      Function.update_of_ne hid ..
    rw [hreader] at hr
    exact (h.words other r hr).grows hgrows

/-- In every state that can come about the table tells its names apart, and holds all symbols that
were given out. -/
theorem run_sound {s : Session κ} (h : s.Sound) (calls : List (κ × Call)) :
    (s.run calls).2.Sound ∧
      s.context.interner.Grows (s.run calls).2.context.interner ∧
      ∀ entry ∈ (s.run calls).1, ∀ x ∈ entry.reply.names,
        (s.run calls).2.context.interner.Holds x := by
  induction calls generalizing s with
  | nil => exact ⟨h, .refl _, by simp [run]⟩
  | cons first rest ih =>
    rcases first with ⟨id, call⟩
    rcases step_sound h id call with ⟨hstep, hgrows, hreply⟩
    rcases ih hstep with ⟨hsound, hlater, hentries⟩
    refine ⟨hsound, hgrows.trans hlater, ?_⟩
    intro entry hentry x hx
    rcases List.mem_cons.1 hentry with rfl | hentry
    · exact (hreply x hx).grows hlater
    · exact hentries entry hentry x hx

/-- Readers do not interfere.  In a context that has given out symbols of any names and has any
diagnostics, any readers make any calls.  Each reader then gives the answers, by the names of their
symbols, and reports call by call what it does alone in a fresh context, and these reports are the
diagnostics of that context.  The diagnostics of the shared context are those from before, and then
the reports in the order of the calls.  Two symbols that were given out, before or in an answer, are
the same exactly if their names are, and so are their addresses; and by the address of its symbol a
word is told to be a keyword or a name. -/
theorem readers_do_not_interfere (table : Nat) (names : List String)
    (diagnostics : Array Diagnostic) (calls : List (κ × Call)) :
    let ctx : Context := ⟨(Interner.empty table).addAll names, diagnostics⟩
    let run := (start ctx).run calls
    let given := names.map ctx.interner.symbol ++ run.1.flatMap fun entry => entry.reply.names
    (∀ id fresh,
      let alone := (start (Context.empty fresh)).run (calls.filter (·.1 = id))
      (run.1.filter (·.reader = id)).map (Entry.map Symbol.name)
          = alone.1.map (Entry.map Symbol.name) ∧
        alone.2.context.diagnostics.toList
          = (run.1.filter (·.reader = id)).flatMap Entry.reported) ∧
    run.2.context.diagnostics.toList = diagnostics.toList ++ run.1.flatMap Entry.reported ∧
    (∀ x ∈ given, ∀ y ∈ given,
      (x = y ↔ x.name = y.name) ∧ (x.address = y.address ↔ x.name = y.name)) ∧
    ∀ id, ∀ reader ∈ run.2.readers id, ∀ word,
      reader.words.kind (run.2.context.intern word).1
        = (Kind.ofWord word).map (run.2.context.intern word).2.interner.symbol := by
  intro ctx run given
  have hstart : (start ctx : Session κ).Sound :=
    ⟨(Interner.distinct_empty table).addAll names, by simp [start]⟩
  rcases run_sound hstart calls with ⟨hsound, hgrows, hentries⟩
  refine ⟨?_, diagnostics_run (start ctx) calls, ?_, ?_⟩
  · intro id fresh alone
    have hfresh : ((start ctx : Session κ).readers id).map Reader.source
        = ((start (Context.empty fresh) : Session κ).readers id).map Reader.source := rfl
    have hsame : _ = alone.1.map (Entry.map Symbol.name) := run_agrees hfresh calls
    refine ⟨hsame, ?_⟩
    have hreported := congrArg (List.flatMap Entry.reported) hsame
    rw [Entry.flatMap_reported_map, Entry.flatMap_reported_map] at hreported
    rw [hreported]
    exact diagnostics_run (start (Context.empty fresh)) _
  · have hheld : ∀ x ∈ given, run.2.context.interner.Holds x := by
      intro x hx
      rcases List.mem_append.1 hx with hx | hx
      · exact (Interner.holds_of_mem_map hx).grows hgrows
      · rcases List.mem_flatMap.1 hx with ⟨entry, hentry, hx⟩
        exact hentries entry hentry x hx
    intro x hx y hy
    exact hsound.distinct.eq_iff (hheld x hx) (hheld y hy)
  · intro id reader hreader word
    have hadded := run.2.context.interner.grows_add word
    have hword : word ∈ (run.2.context.interner.add word).indices :=
      (run.2.context.interner.holds_add word).1
    have hkind := ((hsound.words id reader hreader).grows hadded).kind_eq
      (hsound.distinct.grows hadded) hword
    rwa [Interner.symbol_add_self] at hkind

end Session

end LetCalc
