import LetCalc.Proofs.Program.Acceptance
import LetCalc.Proofs.Program.Stages

/-!
# Leaving out one token

A token is left out of a grammatical program.  If it is the name or the equals sign of a binding, a
semicolon, or a parenthesis that closes a group, this is reported once, and so is an operand, unless
an operator follows that can be a sign.  Nothing else is reported, and no other statement changes.

Main results:

- Definitions `Part.of?` and `Part.cost`: the tokens that may be left out, and what that costs.
- Theorem `Stage.course_omission`: what an omission inside an expression costs.
- Theorems `Parse.stmt_omission` and `Parse.stmts_omission`: an omission in a statement and in a
  program.
- Theorem `Context.one_omission_one_report`: an omission in a source.
-/

namespace LetCalc

open Grammar

/-! ## Parts of a program -/

/-- What a token that may be left out is in its program. -/
inductive Part where
  /-- The name that a statement binds. -/
  | name
  /-- The equals sign of a binding. -/
  | equal
  /-- The end of a statement. -/
  | semicolon
  /-- The parenthesis that closes a group. -/
  | close
  /-- A number or a variable in an expression. -/
  | operand
deriving DecidableEq, Repr

namespace Part

/-- What a token is behind the tokens `front` of a grammatical program, if it may be left out. -/
def of? (front : List (Kind String)) : Kind String → Option Part
  | .identifier _ => some (if front.getLast? = some .keywordLet then name else operand)
  | .int _ => some operand
  | .equal => some equal
  | .semicolon => some semicolon
  | .rightParen => some close
  | _ => none

/-- How many reports it costs to leave the part out in front of the kind `next`.  An operator that
can also be a sign takes the place of an operand in front of it. -/
def cost (next : Option (Kind String)) : Part → Nat
  | operand => if next = some .plus ∨ next = some .minus then 0 else 1
  | name | equal | semicolon | close => 1

/-- Whether the part is missed as soon as the token behind it is in view. -/
def isPlaced : Part → Bool
  | name | equal | semicolon => true
  | close | operand => false

theorem of?_identifier (front : List (Kind String)) (x : String) :
    of? front (.identifier x)
      = some (if front.getLast? = some .keywordLet then name else operand) :=
  rfl

/-- Only behind the keyword of a binding a name is not an operand. -/
theorem of?_of_ne {front : List (Kind String)} (h : front.getLast? ≠ some .keywordLet)
    (kind : Kind String) : of? front kind = of? [] kind := by
  cases kind with
  | identifier x => rw [of?_identifier, if_neg h, of?_identifier, if_neg nofun]
  | _ => rfl

/-- What stands in front plays no part, unless it ends in the keyword of a binding. -/
theorem of?_append {first : List (Kind String)} (h : first.getLast? ≠ some .keywordLet)
    (more : List (Kind String)) (kind : Kind String) :
    of? (first ++ more) kind = of? more kind := by
  rcases List.eq_nil_or_concat more with rfl | ⟨more, last, rfl⟩
  · rw [List.append_nil, of?_of_ne h]
  · have hlast : (first ++ more.concat last).getLast? = (more.concat last).getLast? := by
      rw [List.concat_eq_append, ← List.append_assoc, List.getLast?_concat, List.getLast?_concat]
    cases kind with
    | identifier x => rw [of?_identifier, of?_identifier, hlast]
    | _ => rfl

theorem keyword?_of_of? {front : List (Kind String)} {kind : Kind String} {part : Part}
    (h : of? front kind = some part) : kind.keyword? = none := by
  cases kind <;> first | rfl | cases h

/-- What is neither an equals sign nor a semicolon is not placed, unless it is a bound name. -/
theorem isPlaced_of_ne {kind : Kind String} {part : Part} (h : of? [] kind = some part)
    (hne : kind ≠ .equal ∧ kind ≠ .semicolon) : part.isPlaced = false := by
  cases kind with
  | equal => exact absurd rfl hne.1
  | semicolon => exact absurd rfl hne.2
  | _ => cases h <;> rfl

end Part

/-! ## Expressions -/

namespace Stage

variable {kind : Kind String} {front back : List (Kind String)} {part : Part}

theorem eq_of_next?_operand {s s' : Stage} (hpart : Part.of? [] kind = some .operand)
    (h : s.next? kind = some s') : ∃ g, s = ⟨true, g⟩ ∧ s' = ⟨false, g⟩ := by
  rcases s with ⟨- | -, g⟩
  · cases kind <;> cases hpart <;> cases h
  · cases kind <;> cases hpart <;> cases h <;> exact ⟨g, rfl, rfl⟩

/-- Where nothing is missing behind an operand, nothing else is missing without the operand, unless
an operator follows that can be a sign. -/
theorem course_operand {g : Nat} {tokens rest : Tokens}
    (hwhole : course ⟨false, g⟩ tokens = (0, rest))
    (hlead : ∀ token ∈ tokens.head?, ¬ (token.kind = .plus ∨ token.kind = .minus) →
      token.kind.lead = .none) :
    course ⟨true, g⟩ tokens = (Part.operand.cost tokens.kinds.head?, rest) := by
  cases tokens with
  | nil =>
    rw [course_missing (by simp), hwhole]
    rfl
  | cons token tokens =>
    by_cases hsign : token.kind = .plus ∨ token.kind = .minus
    · rw [course_sign hsign, hwhole]
      simp [Part.cost, hsign]
    · have hnone : ∀ token' ∈ (token :: tokens).head?, token'.kind.lead = .none := by
        rintro _ ⟨⟩
        exact hlead token rfl hsign
      rw [course_missing hnone, hwhole]
      simp [Part.cost, hsign, charged]

/-- A token that is left out of an expression is missing from it as its part says. -/
theorem course_omission (h : advance ⟨true, 0⟩ (front ++ kind :: back) = some ⟨false, 0⟩)
    (hpart : Part.of? [] kind = some part) {before behind : Tokens} (hbefore : before.kinds = front)
    (hbehind : behind.kinds = back) {close : Token String} (hclose : close.kind = .semicolon)
    (rest : Tokens) :
    course ⟨true, 0⟩ (before ++ (behind ++ close :: rest))
      = (part.cost (Tokens.kinds (behind ++ close :: rest)).head?, close :: rest) := by
  rw [advance_append] at h
  rcases Option.bind_eq_some_iff.1 h with ⟨s, hfront, h⟩
  rcases Option.bind_eq_some_iff.1 h with ⟨s', hnext, hback⟩
  subst hbefore hbehind
  rw [course_advance hfront]
  have hfits := fits_of_next? hnext
  cases kind with
  | equal => exact absurd rfl hfits.2.1
  | semicolon => exact absurd rfl hfits.2.2
  | rightParen =>
    cases hpart
    -- One group more is open to the end.
    rcases eq_of_next?_close hnext with ⟨g, rfl, rfl⟩
    rw [course_advance (advance_shift hback), course_semicolon hclose]
    rfl
  | identifier | int =>
    obtain rfl : .operand = part := Option.some.inj hpart
    rcases eq_of_next?_operand hpart hnext with ⟨g, rfl, rfl⟩
    apply course_operand
    · rw [course_advance hback, course_semicolon hclose]
    · intro token htoken hsign
      cases behind with
      | nil =>
        cases htoken
        rw [hclose]
        rfl
      | cons token' behind =>
        cases htoken
        rcases Option.bind_eq_some_iff.1 hback with ⟨t, hfollows, -⟩
        exact lead_of_next? hfollows hsign
  | _ => cases hpart

end Stage

/-! ## Derived statements -/

/-- A derived statement has one keyword, at its start. -/
theorem Grammar.StmtDerivation.shape {ks : List (Kind String)} {s : StmtTree String}
    (d : StmtDerivation ks s) :
    ∃ word tail, ks = word :: tail ∧ word.keyword?.isSome = true ∧
      ∀ kind ∈ tail, kind.keyword? = none := by
  cases d with
  | bind x value =>
    refine ⟨_, _, rfl, rfl, ?_⟩
    rintro kind (- | ⟨_, - | ⟨_, h⟩⟩)
    · rfl
    · rfl
    · exact (value.fits_closed h).1
  | print value =>
    refine ⟨_, _, rfl, rfl, ?_⟩
    intro kind h
    exact (value.fits_closed h).1

theorem Grammar.StmtDerivation.getLast?_eq {ks : List (Kind String)} {s : StmtTree String}
    (d : StmtDerivation ks s) : ks.getLast? = some .semicolon := by
  cases d <;> simp [List.getLast?_cons]

/-- The number of statements that some tokens begin. -/
def begun (ks : List (Kind String)) : Nat := ks.countP fun kind => kind.keyword?.isSome

/-- A statement begins with its first token. -/
theorem Grammar.StmtDerivation.begun_front {ks : List (Kind String)} {s : StmtTree String}
    (d : StmtDerivation ks s) {front back : List (Kind String)} (hks : ks = front ++ back)
    (hfront : front ≠ []) : begun front = 1 := by
  rcases d.shape with ⟨word, tail, rfl, hword, htail⟩
  cases front with
  | nil => exact absurd rfl hfront
  | cons word' front =>
    rw [List.cons_append, List.cons.injEq] at hks
    rcases hks with ⟨rfl, rfl⟩
    have hnone : front.countP (fun kind => kind.keyword?.isSome) = 0 := by
      rw [List.countP_eq_zero]
      intro kind hkind
      simp [htail kind (List.mem_append_left _ hkind)]
    rw [begun, List.countP_cons, hnone, if_pos hword]

/-- A derived program starts with a keyword. -/
theorem Grammar.ProgramDerivation.starts {ks : List (Kind String)} {ss : List (StmtTree String)}
    (d : ProgramDerivation ks ss) : ∀ kind ∈ ks.head?, kind.keyword?.isSome = true := by
  cases d with
  | nil => nofun
  | cons stmt rest =>
    rcases stmt.shape with ⟨word, tail, rfl, hword, -⟩
    rintro _ ⟨⟩
    exact hword

/-- The programs have the same statements except for the `n`-th, so they have as many. -/
def SameExcept (n : Nat) (ss ss' : List (StmtTree String)) : Prop :=
  ∃ first s s' last, first.length + 1 = n ∧ ss = first ++ s :: last ∧ ss' = first ++ s' :: last

theorem SameExcept.cons {n : Nat} {ss ss' : List (StmtTree String)} (h : SameExcept n ss ss')
    (s : StmtTree String) : SameExcept (1 + n) (s :: ss) (s :: ss') := by
  rcases h with ⟨first, t, t', last, rfl, rfl, rfl⟩
  exact ⟨s :: first, t, t', last, by rw [List.length_cons, Nat.add_comm 1], rfl, rfl⟩

/-! ## Statements -/

namespace Parse

/-- Something may be missing in front of `here`: reading goes on at `rest` after `n` findings, which
all are about the token in view at `here` if they are `placed`. -/
structure Misses {α : Type} (eof : Span) (n : Nat) (placed : Bool) (here rest : Tokens)
    (parsed : Parsed α) : Prop where
  rest_eq : parsed.rest = rest
  length_eq : parsed.findings.length = n
  span_eq : placed = true → ∀ f ∈ parsed.findings, f.span = (here.view eof).span

namespace Misses

variable {α β : Type} {eof : Span} {n : Nat} {placed : Bool} {here rest : Tokens}

theorem findings_eq_nil {parsed : Parsed α} (h : Misses eof 0 placed here rest parsed) :
    parsed.findings = [] :=
  List.length_eq_zero_iff.1 h.length_eq

/-- What follows is complete. -/
theorem complete {first : Parsed α} {next : α → Tokens → Parsed β} {rest' : Tokens}
    (h : Misses eof n placed here rest first) (hnext : (next first.value rest).findings = [])
    (hrest : (next first.value rest).rest = rest') :
    Misses eof n placed here rest' (first.andThen next) := by
  have hfindings : (first.andThen next).findings = first.findings := by
    rw [Parsed.findings_andThen, h.rest_eq, hnext, List.append_nil]
  refine ⟨?_, ?_, ?_⟩
  · rw [Parsed.rest_andThen, h.rest_eq, hrest]
  · rw [hfindings]
    exact h.length_eq
  · rw [hfindings]
    exact h.span_eq

/-- What is made of a value is not read. -/
theorem build {parsed : Parsed α} (h : Misses eof n placed here rest parsed) (f : α → β) :
    Misses eof n placed here rest (parsed.andThen fun x tokens => ⟨f x, tokens, []⟩) :=
  h.complete rfl rfl

/-- A token that is missing in front of something complete. -/
theorem report {x : α} {tokens : Tokens} {next : α → Tokens → Parsed β} {what : Expected}
    {goal : Goal} (h : Misses eof 0 false here rest (next x tokens)) :
    Misses eof 1 true here rest
      ((Parsed.mk x tokens [unexpected eof what goal here]).andThen next) := by
  have hfindings : ((Parsed.mk x tokens [unexpected eof what goal here]).andThen next).findings
      = [unexpected eof what goal here] := by
    rw [Parsed.findings_andThen, h.findings_eq_nil, List.append_nil]
  refine ⟨h.rest_eq, ?_, ?_⟩
  · rw [hfindings]
    rfl
  · intro _ f hf
    rw [hfindings] at hf
    rw [List.mem_singleton.1 hf]
    rfl

end Misses

/-- Reads an expression and the semicolon behind it. -/
def closed (eof : Span) (goal goal' : Goal) (tokens : Tokens) : Parsed (Expr String) :=
  (expression eof maxDepth .bottom goal tokens).andThen fun e tokens =>
  (expect eof .semicolon goal' tokens).andThen fun _ tokens => ⟨e, tokens, []⟩

theorem stmt_bind_eq (eof span : Span) (tokens : Tokens) :
    stmt eof .bind span tokens
      = (boundName eof tokens).andThen fun x tokens =>
        (expect eof .equal .letStatement tokens).andThen fun _ tokens =>
        (closed eof .initializer .letStatement tokens).andThen fun e tokens =>
        ⟨.bind span x e, tokens, []⟩ := by
  simp only [stmt, bindStmt, closed, Parsed.andThen_assoc, Parsed.mk_andThen]

theorem stmt_print_eq (eof span : Span) (tokens : Tokens) :
    stmt eof .print span tokens
      = (closed eof .printStatement .printStatement tokens).andThen fun e tokens =>
        ⟨.print span e, tokens, []⟩ := by
  simp only [stmt, printStmt, closed, Parsed.andThen_assoc, Parsed.mk_andThen]

section Closed

variable {eof : Span} {goal goal' : Goal} {rest : Tokens} {close : Token String}

/-- Behind an expression that ends at its semicolon nothing is missing. -/
theorem closed_of_course {tokens : Tokens} {n : Nat} (hclose : close.kind = .semicolon)
    (hcourse : Stage.course ⟨true, 0⟩ tokens = (n, close :: rest))
    (hdeep : ¬ TooDeep (closed eof goal goal' tokens).findings) (here : Tokens) :
    Misses eof n false here rest (closed eof goal goal' tokens) := by
  rw [expression_course (not_tooDeep_append hdeep).1, Prod.mk.injEq] at hcourse
  rcases hcourse with ⟨hlength, hrest⟩
  have hexpect : expect eof .semicolon goal' (expression eof maxDepth .bottom goal tokens).rest
      = ⟨(), rest, []⟩ := by
    rw [hrest, expect_of_kind eof goal' rest hclose]
  refine ⟨?_, ?_, nofun⟩
  · rw [closed, Parsed.rest_andThen, hexpect]
    rfl
  · rw [closed, Parsed.findings_andThen, hexpect, List.length_append]
    exact hlength

variable {ks : List (Kind String)} {t : ExprTree String}

/-- From a derived expression and its semicolon nothing is missing. -/
theorem closed_derivation (d : Derivation .expr ks t) {used : Tokens}
    (hused : used.kinds = ks ++ [.semicolon])
    (hdeep : ¬ TooDeep (closed eof goal goal' (used ++ rest)).findings) (here : Tokens) :
    Misses eof 0 false here rest (closed eof goal goal' (used ++ rest)) := by
  rcases Tokens.kinds_eq_append hused with ⟨inner, last, rfl, hinner, hlast⟩
  rcases Tokens.kinds_eq_singleton hlast with ⟨close, rfl, hclose⟩
  apply closed_of_course hclose _ hdeep
  have hadvance : Stage.advance ⟨true, 0⟩ inner.kinds = some ⟨false, 0⟩ := by
    rw [hinner]
    exact Stage.advance_derivation d 0
  rw [List.append_assoc, Stage.course_advance hadvance]
  exact Stage.course_semicolon hclose 0 rest

/-- Where the next statement follows a derived expression, its semicolon is missing. -/
theorem closed_unended (d : Derivation .expr ks t) {used : Tokens} (hused : used.kinds = ks)
    (hrest : AtKeyword rest)
    (hdeep : ¬ TooDeep (closed eof goal goal' (used ++ rest)).findings) :
    Misses eof 1 true rest rest (closed eof goal goal' (used ++ rest)) := by
  have hadvance : Stage.advance ⟨true, 0⟩ used.kinds = some ⟨false, 0⟩ := by
    rw [hused]
    exact Stage.advance_derivation d 0
  have hend : ∀ token ∈ rest.head?, Stage.next? token.kind ⟨false, 0⟩ = none :=
    fun token htoken => Stage.next?_outside (binOp?_of_keyword? (hrest token htoken))
  have hcourse := expression_course (not_tooDeep_append hdeep).1
  rw [Stage.course_advance hadvance, Stage.course_end hend, Prod.mk.injEq] at hcourse
  have hne : ∀ token ∈ rest.head?, token.kind ≠ .semicolon := by
    intro token htoken hkind
    have hword := hrest token htoken
    rw [hkind] at hword
    cases hword
  -- The expression is complete, and only the semicolon is reported.
  rw [closed]
  generalize expression eof maxDepth .bottom goal (used ++ rest) = parsed at hcourse
  rcases parsed with ⟨e, left, findings⟩
  rcases hcourse with ⟨hlength, rfl⟩
  obtain rfl := List.length_eq_zero_iff.1 hlength.symm
  rw [Parsed.mk_andThen, expect_of_ne eof goal' hne]
  exact Misses.report ⟨rfl, rfl, nofun⟩

/-- A token is left out of an expression or the semicolon behind it. -/
theorem closed_omission (d : Derivation .expr ks t) {front back : List (Kind String)}
    {kind : Kind String} {part : Part} (hks : ks ++ [.semicolon] = front ++ kind :: back)
    (hpart : Part.of? front kind = some part) {before behind : Tokens}
    (hbefore : before.kinds = front) (hbehind : behind.kinds = back) (hrest : AtKeyword rest)
    (hdeep : ¬ TooDeep (closed eof goal goal' (before ++ (behind ++ rest))).findings) :
    Misses eof (part.cost (Tokens.kinds (behind ++ rest)).head?) part.isPlaced (behind ++ rest) rest
      (closed eof goal goal' (before ++ (behind ++ rest))) := by
  have hfront : front.getLast? ≠ some .keywordLet := by
    intro hlast
    have hmem : Kind.keywordLet ∈ ks ++ [.semicolon] := by
      rw [hks]
      exact List.mem_append_left _ (List.mem_of_getLast? hlast)
    cases (d.fits_closed hmem).1
  rw [Part.of?_of_ne hfront] at hpart
  rcases List.eq_nil_or_concat back with rfl | ⟨inner, last, rfl⟩
  · -- The semicolon itself.
    rcases List.append_inj' hks rfl with ⟨rfl, hkind⟩
    cases hkind
    cases hpart
    cases List.map_eq_nil_iff.1 hbehind
    exact closed_unended d hbefore hrest hdeep
  · rw [List.concat_eq_append, ← List.cons_append, ← List.append_assoc] at hks
    rcases List.append_inj' hks rfl with ⟨rfl, hlast⟩
    cases hlast
    rw [List.concat_eq_append] at hbehind
    rcases Tokens.kinds_eq_append hbehind with ⟨behind, closes, rfl, hinner, hcloses⟩
    rcases Tokens.kinds_eq_singleton hcloses with ⟨close, rfl, hclose⟩
    rw [List.append_assoc] at hdeep ⊢
    have hcourse := Stage.course_omission (Stage.advance_derivation d 0) hpart hbefore hinner
      hclose rest
    rw [Part.isPlaced_of_ne hpart (d.fits (by simp)).2]
    exact closed_of_course hclose hcourse hdeep _

end Closed

section Binding

variable {eof span : Span} {ks : List (Kind String)} {t : ExprTree String} {rest : Tokens}

/-- A name is left out. -/
theorem bind_nameless (value : Derivation .expr ks t) {equal : Token String} {behind : Tokens}
    (hequal : equal.kind = .equal) (hbehind : behind.kinds = ks ++ [.semicolon])
    (hdeep : ¬ TooDeep (stmt eof .bind span (equal :: (behind ++ rest))).findings) :
    Misses eof 1 true (equal :: (behind ++ rest)) rest
      (stmt eof .bind span (equal :: (behind ++ rest))) := by
  have hname : ∀ token ∈ (equal :: (behind ++ rest)).head?, ∀ x, token.kind ≠ .identifier x := by
    rintro _ ⟨⟩ x hkind
    rw [hequal] at hkind
    cases hkind
  rw [stmt_bind_eq, boundName_of_ne eof hname] at hdeep ⊢
  have hrest := (not_tooDeep_append hdeep).2
  simp only [expect_of_kind eof _ _ hequal, Parsed.mk_andThen] at hrest
  apply Misses.report
  rw [expect_of_kind eof _ _ hequal]
  exact (closed_derivation value hbehind (not_tooDeep_append hrest).1 _).build _

/-- An equals sign is left out. -/
theorem bind_equalless (value : Derivation .expr ks t) {name : Token String} {x : String}
    {behind : Tokens} (hname : name.kind = .identifier x)
    (hbehind : behind.kinds = ks ++ [.semicolon])
    (hdeep : ¬ TooDeep (stmt eof .bind span (name :: (behind ++ rest))).findings) :
    Misses eof 1 true (behind ++ rest) rest
      (stmt eof .bind span (name :: (behind ++ rest))) := by
  have hequal : ∀ token ∈ (behind ++ rest).head?, token.kind ≠ .equal := by
    intro token htoken hkind
    have hmem : token ∈ behind := by
      cases behind with
      | nil => cases ks <;> cases hbehind
      | cons token' behind =>
        cases htoken
        exact List.mem_cons_self ..
    exact (value.fits_closed (hbehind ▸ List.mem_map_of_mem hmem)).2 hkind
  rw [stmt_bind_eq, boundName_of_kind eof _ hname, Parsed.mk_andThen,
    expect_of_ne eof _ hequal] at hdeep ⊢
  have hrest := (not_tooDeep_append hdeep).2
  apply Misses.report
  exact (closed_derivation value hbehind (not_tooDeep_append hrest).1 _).build _

end Binding

/-- A token is left out of a statement in front of another. -/
theorem stmt_omission (eof : Span) {front back : List (Kind String)} {kind : Kind String}
    {s : StmtTree String} (d : StmtDerivation (front ++ kind :: back) s) {part : Part}
    (hpart : Part.of? front kind = some part) {before behind rest : Tokens}
    (hbefore : before.kinds = front) (hbehind : behind.kinds = back) (hrest : AtKeyword rest) :
    ∃ token tail word, before = token :: tail ∧ token.kind.keyword? = some word ∧
      (¬ TooDeep (stmt eof word token.span (tail ++ (behind ++ rest))).findings →
        Misses eof (part.cost (Tokens.kinds (behind ++ rest)).head?) part.isPlaced (behind ++ rest)
          rest (stmt eof word token.span (tail ++ (behind ++ rest)))) := by
  generalize hks : front ++ kind :: back = ks at d
  cases d with
  | bind x value =>
    rcases front with - | ⟨k, - | ⟨k', - | ⟨k'', inner⟩⟩⟩
    · -- the keyword
      cases hks
      cases hpart
    · -- the name
      cases hks
      rcases Tokens.kinds_eq_singleton hbefore with ⟨token, rfl, hkind⟩
      rcases Tokens.kinds_eq_cons hbehind with ⟨equal, behind, rfl, hequal, hvalue⟩
      obtain rfl : .name = part := Option.some.inj hpart
      exact ⟨token, [], .bind, rfl, Kind.keyword?_eq_bind.2 hkind,
        bind_nameless value hequal hvalue⟩
    · -- the equals sign
      cases hks
      cases hpart
      rcases Tokens.kinds_eq_cons hbefore with ⟨token, tail, rfl, hkind, htail⟩
      rcases Tokens.kinds_eq_singleton htail with ⟨name, rfl, hname⟩
      exact ⟨token, [name], .bind, rfl, Kind.keyword?_eq_bind.2 hkind,
        bind_equalless value hname hbehind⟩
    · -- the value or its semicolon
      injection hks with hk hks
      injection hks with hk' hks
      injection hks with hk'' hks
      subst hk hk' hk''
      rcases Tokens.kinds_eq_cons hbefore with ⟨token, tail, rfl, hkind, htail⟩
      rcases Tokens.kinds_eq_cons htail with ⟨name, tail, rfl, hname, htail⟩
      rcases Tokens.kinds_eq_cons htail with ⟨equal, tail, rfl, hequal, htail⟩
      refine ⟨token, _, .bind, rfl, Kind.keyword?_eq_bind.2 hkind, ?_⟩
      rw [List.cons_append, List.cons_append, stmt_bind_eq, boundName_of_kind eof _ hname,
        Parsed.mk_andThen, expect_of_kind eof _ _ hequal, Parsed.mk_andThen]
      intro hdeep
      have hequal : [Kind.keywordLet, .identifier x, .equal].getLast? ≠ some .keywordLet := by simp
      have hinside := (Part.of?_append hequal inner kind).symm.trans hpart
      exact (closed_omission value hks.symm hinside htail hbehind hrest
        (not_tooDeep_append hdeep).1).build _
  | print value =>
    rcases front with - | ⟨k, inner⟩
    · -- the keyword
      cases hks
      cases hpart
    · injection hks with hk hks
      subst hk
      rcases Tokens.kinds_eq_cons hbefore with ⟨token, tail, rfl, hkind, htail⟩
      refine ⟨token, tail, .print, rfl, Kind.keyword?_eq_print.2 hkind, ?_⟩
      rw [stmt_print_eq]
      intro hdeep
      have hword : [(Kind.keywordPrint : Kind String)].getLast? ≠ some .keywordLet := by simp
      have hinside := (Part.of?_append hword inner kind).symm.trans hpart
      exact (closed_omission value hks.symm hinside htail hbehind hrest
        (not_tooDeep_append hdeep).1).build _

/-! ## Programs -/

section Programs

variable {ks : List (Kind String)} {ss : List (StmtTree String)}

/-- Where nothing is nested too deeply there is room for every statement. -/
theorem demands_le_of_not_tooDeep {eof : Span} (d : ProgramDerivation ks ss) {tokens : Tokens}
    (h : tokens.kinds = ks) (hdeep : ¬ TooDeep (stmts eof tokens).findings) :
    ∀ n ∈ d.demands, n ≤ maxDepth := by
  intro n hn
  apply Nat.le_of_not_lt
  intro hlt
  exact hdeep (tooDeep_of_lt_demand eof d h ⟨n, hn, hlt⟩)

/-- A token is left out of a program. -/
theorem stmts_omission (eof : Span) (d : ProgramDerivation ks ss)
    (hroom : ∀ n ∈ d.demands, n ≤ maxDepth) {front back : List (Kind String)} {kind : Kind String}
    (hks : ks = front ++ kind :: back) {part : Part} (hpart : Part.of? front kind = some part)
    {before here : Tokens} (hbefore : before.kinds = front) (hhere : here.kinds = back)
    (hdeep : ¬ TooDeep (stmts eof (before ++ here)).findings) :
    Misses eof (part.cost here.kinds.head?) part.isPlaced here [] (stmts eof (before ++ here)) ∧
      SameExcept (begun front) ss ((stmts eof (before ++ here)).value.map Stmt.tree) := by
  induction d generalizing front before with
  | nil => simp at hks
  | @cons ks ks' s ss stmt rest ih =>
    rcases List.append_eq_append_iff.1 hks with ⟨more, rfl, hmore⟩ | ⟨inner, hinner, hback⟩
    · -- The token stands behind the statement.
      rcases Tokens.kinds_eq_append hbefore with ⟨used, between, rfl, hused, hbetween⟩
      rw [List.append_assoc] at hdeep ⊢
      rcases stmtDerivation_reads eof stmt hused (between ++ here) with
        ⟨token, tail, word, rfl, hword, hfits, -⟩
      rcases hfits (hroom _ (List.mem_cons_self ..)) with ⟨st, htree, hread⟩
      rw [List.cons_append, stmts_keyword eof _ hword, hread, Parsed.mk_andThen] at hdeep ⊢
      have hlast : ks.getLast? ≠ some .keywordLet := by simp [stmt.getLast?_eq]
      rw [Part.of?_append hlast] at hpart
      rcases ih (fun n hn => hroom n (List.mem_cons_of_mem _ hn)) hmore hpart hbetween
        (not_tooDeep_append hdeep).1 with ⟨hmisses, hexcept⟩
      refine ⟨hmisses.build _, ?_⟩
      have hone : begun ks = 1 := by
        refine stmt.begun_front (List.append_nil ks).symm ?_
        rintro rfl
        cases hused
      have hbegun : begun (ks ++ more) = 1 + begun more := by
        rw [← hone]
        exact List.countP_append
      rw [hbegun, Parsed.value_andThen, List.map_cons, htree]
      exact hexcept.cons s
    · cases inner with
      | nil =>
        -- A keyword is never left out.
        have hword := rest.starts kind (by rw [← List.nil_append ks', ← hback]; rfl)
        rw [Part.keyword?_of_of? hpart] at hword
        cases hword
      | cons kind' inner =>
        -- The token stands in the statement, and what follows starts with a keyword again.
        rw [List.cons_append, List.cons.injEq] at hback
        rcases hback with ⟨rfl, rfl⟩
        subst hinner
        rcases Tokens.kinds_eq_append hhere with ⟨behind, after, rfl, hbehind, hafter⟩
        have hkeyword : AtKeyword after := by
          intro token htoken
          apply rest.starts
          rw [← hafter, Tokens.kinds, List.head?_map]
          exact Option.mem_map_of_mem _ htoken
        rcases stmt_omission eof stmt hpart hbefore hbehind hkeyword with
          ⟨token, tail, word, rfl, hword, hmisses⟩
        rw [List.cons_append, stmts_keyword eof _ hword] at hdeep ⊢
        have hfirst := hmisses (not_tooDeep_append hdeep).1
        rcases stmts_of_demands_le eof rest hafter
          (fun n hn => hroom n (List.mem_cons_of_mem _ hn)) with ⟨hclean, htrees⟩
        refine ⟨hfirst.complete ?_ (stmts_rest eof after), ?_⟩
        · rw [Parsed.findings_andThen, hclean]
          rfl
        · have hone : begun front = 1 := by
            refine stmt.begun_front rfl ?_
            rintro rfl
            cases hbefore
          rw [hone, Parsed.value_andThen, Parsed.value_andThen, hfirst.rest_eq, List.map_cons,
            htrees]
          exact ⟨[], s, _, ss, rfl, rfl, rfl⟩

end Programs

end Parse

/-! ## Sources -/

/-- Tokens that all stand in some source are the tokens of a source. -/
theorem Input.exists_of_forall_mem (input : Input) {ks : List (Kind String)}
    (h : ∀ kind ∈ ks, kind ∈ input.tokens.kinds) :
    ∃ input' : Input, input'.tokens.kinds = ks ∧ input'.scanFindings = [] := by
  have hspell : ∀ kind ∈ ks, kind.isSpellable = true :=
    fun kind hkind => input.isSpellable_of_mem_tokens (h kind hkind)
  exact ⟨.ofString (.ofList (spaced ks)),
    Input.tokens_ofString (String.toList_ofList ▸ scans_spaced hspell)⟩

namespace Context

variable (ctx : Context) (path : Option String)

/-- Where nothing is reported as nested too deeply, nothing is. -/
theorem not_tooDeep_of_reported {input : Input}
    (h : ∀ d ∈ ctx.reported path input, d.problem ≠ .tooDeep) :
    ¬ Parse.TooDeep (Parse.stmts input.text.eof input.tokens).findings := by
  intro hdeep
  rcases ctx.tooDeep_reported path input hdeep with ⟨d, hd, hproblem⟩
  exact h d hd hproblem

/-- One omission costs one report.  A source is derived by the grammar, and one of its tokens is
left out: a name that is bound, an equals sign, a semicolon, a parenthesis that closes a group, or
an operand.  There is a source with the tokens that are left, and however such a source looks, as
long as nothing is nested too deeply one report is made, or none if it is an operand in front of an
operator that can be a sign.  A name, an equals sign and a semicolon are missed at the token behind.
All statements are the same except for the one that the token is left out of. -/
theorem one_omission_one_report (ctx' : Context) (path' : Option String) {input : Input}
    {trees : List (StmtTree String)} (program : ProgramDerivation input.tokens.kinds trees)
    (hdeep : ∀ d ∈ ctx.reported path input, d.problem ≠ .tooDeep)
    {front back : List (Kind String)} {kind : Kind String}
    (hkinds : input.tokens.kinds = front ++ kind :: back) {part : Part}
    (hpart : Part.of? front kind = some part) :
    (∃ input' : Input, input'.tokens.kinds = front ++ back ∧ input'.scanFindings = []) ∧
      ∀ input' : Input, input'.tokens.kinds = front ++ back → input'.scanFindings = [] →
        (∀ d ∈ ctx'.reported path' input', d.problem ≠ .tooDeep) →
        (ctx'.reported path' input').length = part.cost back.head? ∧
          (part.isPlaced = true → ∀ d ∈ ctx'.reported path' input',
            d.loc = ⟨path', (Tokens.view input'.text.eof (input'.tokens.drop front.length)).span⟩) ∧
          SameExcept (begun front) ((ctx.parse path input).value.map Symbol.name).trees
            ((ctx'.parse path' input').value.map Symbol.name).trees := by
  constructor
  · apply input.exists_of_forall_mem
    intro kind' hkind'
    rw [hkinds]
    rcases List.mem_append.1 hkind' with hkind' | hkind'
    · exact List.mem_append_left _ hkind'
    · exact List.mem_append_right _ (List.mem_cons_of_mem _ hkind')
  · intro input' hkinds' hscan hdeep'
    rcases Tokens.kinds_eq_append hkinds' with ⟨before, here, htokens, hbefore, hhere⟩
    have hread := ctx'.not_tooDeep_of_reported path' hdeep'
    have hroom := Parse.demands_le_of_not_tooDeep program rfl
      (ctx.not_tooDeep_of_reported path hdeep)
    have htrees := (Parse.stmts_of_demands_le input.text.eof program rfl hroom).2
    have hdrop : input'.tokens.drop front.length = here := by
      have hlength : front.length = before.length := by
        rw [← hbefore, Tokens.kinds, List.length_map]
      rw [htokens, hlength, List.drop_left]
    rw [htokens] at hread
    rcases Parse.stmts_omission input'.text.eof program hroom hkinds hpart hbefore hhere hread with
      ⟨hmisses, hexcept⟩
    rw [← htokens] at hmisses hexcept
    refine ⟨?_, ?_, ?_⟩
    · rw [length_reported, hscan, hmisses.length_eq, hhere]
      exact Nat.zero_add _
    · intro hplaced d hd
      rw [reported_eq] at hd
      rcases List.mem_map.1 hd with ⟨f, hf, rfl⟩
      have hfound := (ctx'.findings_parse path' input').mem_iff.1 hf
      rw [hscan, List.nil_append] at hfound
      rw [hdrop, Finding.diagnostic, hmisses.span_eq hplaced f hfound]
    · rw [trees_parse, trees_parse, htrees]
      exact hexcept

/-- The semicolon between two statements is left out, which is missed at the second keyword. -/
theorem one_omission_one_report_semicolon :
    let input := Input.ofString "let y = 1; print -x * (2 + 3);"
    let input' := Input.ofString "let y = 1 print -x * (2 + 3);"
    let front : List (Kind String) := [.keywordLet, .identifier "y", .equal, .int 1]
    let back : List (Kind String) := [.keywordPrint, .minus, .identifier "x", .star, .leftParen,
      .int 2, .plus, .int 3, .rightParen, .semicolon]
    let found := (empty 1).reported (some "short") input'
    (∃ trees, Nonempty (ProgramDerivation input.tokens.kinds trees)) ∧
      (∀ d ∈ (empty 0).reported none input, d.problem ≠ .tooDeep) ∧
      input.tokens.kinds = front ++ .semicolon :: back ∧
      Part.of? front .semicolon = some .semicolon ∧
      input'.tokens.kinds = front ++ back ∧ input'.scanFindings = [] ∧
      (∀ d ∈ found, d.problem ≠ .tooDeep) ∧
      found.length = 1 ∧
      (∀ d ∈ found, d.loc
        = ⟨some "short", (Tokens.view input'.text.eof (input'.tokens.drop front.length)).span⟩) ∧
      SameExcept 1 (((empty 0).parse none input).value.map Symbol.name).trees
        (((empty 1).parse (some "short") input').value.map Symbol.name).trees := by
  intro input input' front back found
  have hkinds : input.tokens.kinds = front ++ .semicolon :: back := by decide +kernel
  have hkinds' : input'.tokens.kinds = front ++ back := by decide +kernel
  have hdeep : ∀ d ∈ (empty 0).reported none input, d.problem ≠ .tooDeep := by decide +kernel
  have hdeep' : ∀ d ∈ found, d.problem ≠ .tooDeep := by decide +kernel
  have hscan : input'.scanFindings = [] := by decide +kernel
  have hpart : Part.of? front .semicolon = some .semicolon := by decide
  have hprogram : ∃ trees, Nonempty (ProgramDerivation input.tokens.kinds trees) := by
    have program := ProgramDerivation.cons
      (.bind "y" (.ofTerm (.ofUnary (.ofPrimary (.int 1))))) signedProduct
    rw [hkinds]
    exact ⟨_, ⟨program⟩⟩
  rcases hprogram with ⟨trees, ⟨program⟩⟩
  rcases (one_omission_one_report (empty 0) none (empty 1) (some "short") program hdeep hkinds
    hpart).2 input' hkinds' hscan hdeep' with ⟨hlength, hplaced, hexcept⟩
  exact ⟨⟨trees, ⟨program⟩⟩, hdeep, hkinds, hpart, hkinds', hscan, hdeep', hlength, hplaced rfl,
    hexcept⟩

end Context

end LetCalc
