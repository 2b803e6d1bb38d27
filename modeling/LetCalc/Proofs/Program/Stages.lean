import LetCalc.Proofs.Program.Joining
import LetCalc.Proofs.Program.Traversal

/-!
# Stages of an expression

What is missing from an expression can be told without its tree.  Between two tokens it is enough to
know whether an operand has to come next and how many groups are open: precedence decides who gets
an operand, but not whether one is missing.  So an expression that is not nested too deeply is read
with as many findings, and up to the same token, as going from stage to stage says.

Main results:

- Definitions `Stage.next?` and `Stage.advance`: the stages that tokens lead through if nothing is
  missing.
- Definition `Stage.course`: the number of things missing, and the tokens left.
- Theorem `Stage.advance_derivation`: derived tokens lead from a missing operand to a complete one.
- Theorem `Parse.expression_course`: an expression is read as its course says.
-/

namespace LetCalc

/-! ## From stage to stage -/

/-- A place inside an expression. -/
structure Stage where
  /-- Whether an operand has to come next. -/
  needs : Bool
  /-- The number of groups that are open. -/
  groups : Nat
deriving DecidableEq, Repr

namespace Stage

/-- The stage behind a token, if the token fits in. -/
def next? (kind : Kind String) : Stage → Option Stage
  | ⟨true, groups⟩ =>
    match kind.lead with
    | .number _ | .name _ => some ⟨false, groups⟩
    | .sign _ => some ⟨true, groups⟩
    | .group => some ⟨true, groups + 1⟩
    | .none => none
  | ⟨false, groups⟩ =>
    match kind.binOp?, kind, groups with
    | some _, _, groups => some ⟨true, groups⟩
    | none, .rightParen, groups + 1 => some ⟨false, groups⟩
    | _, _, _ => none

/-- The stage behind some tokens, if all of them fit in. -/
def advance (s : Stage) : List (Kind String) → Option Stage
  | [] => some s
  | kind :: ks => (s.next? kind).bind (advance · ks)

/-- What is missing if the expression ends here: an operand if one has to come next, and a
parenthesis for each open group. -/
def owed (s : Stage) : Nat := (if s.needs then 1 else 0) + s.groups

/-- How many things are missing from an expression that goes on from here, and the tokens behind it.
Where an operand is missing the token in view may still fit in behind it. -/
def course (s : Stage) : Tokens → Nat × Tokens
  | [] => (s.owed, [])
  | token :: rest =>
    match s.next? token.kind with
    | some s' => course s' rest
    | none =>
      match s.needs, next? token.kind ⟨false, s.groups⟩ with
      | true, some s' => ((course s' rest).1 + 1, (course s' rest).2)
      | _, _ => (s.owed, token :: rest)

end Stage

/-- A course with more things missing in front of it. -/
def charged (n : Nat) (course : Nat × Tokens) : Nat × Tokens := (n + course.1, course.2)

theorem charged_zero (course : Nat × Tokens) : charged 0 course = course := by
  simp [charged]

theorem charged_charged (m n : Nat) (course : Nat × Tokens) :
    charged m (charged n course) = charged (m + n) course := by
  simp [charged, Nat.add_assoc]

namespace Stage

variable {g : Nat} {kind : Kind String}

theorem next?_number {v : UInt64} (h : kind.lead = .number v) :
    next? kind ⟨true, g⟩ = some ⟨false, g⟩ := by
  simp [next?, h]

theorem next?_name {x : String} (h : kind.lead = .name x) :
    next? kind ⟨true, g⟩ = some ⟨false, g⟩ := by
  simp [next?, h]

theorem next?_sign {op : UnOp} (h : kind.lead = .sign op) :
    next? kind ⟨true, g⟩ = some ⟨true, g⟩ := by
  simp [next?, h]

theorem next?_group (h : kind.lead = .group) : next? kind ⟨true, g⟩ = some ⟨true, g + 1⟩ := by
  simp [next?, h]

theorem next?_none (h : kind.lead = .none) : next? kind ⟨true, g⟩ = none := by
  simp [next?, h]

theorem next?_operator {op : BinOp} (h : kind.binOp? = some op) :
    next? kind ⟨false, g⟩ = some ⟨true, g⟩ := by
  simp [next?, h]

theorem next?_close : next? .rightParen ⟨false, g + 1⟩ = some ⟨false, g⟩ := rfl

/-- Behind an operand only an operator and a parenthesis fit in. -/
theorem next?_other (hop : kind.binOp? = none) (hclose : kind ≠ .rightParen) :
    next? kind ⟨false, g⟩ = none := by
  cases kind with
  | rightParen => exact absurd rfl hclose
  | plus | minus | star | slash => cases hop
  | _ => rfl

/-- Outside of groups only an operator fits in behind an operand. -/
theorem next?_outside (hop : kind.binOp? = none) : next? kind ⟨false, 0⟩ = none := by
  cases kind with
  | plus | minus | star | slash => cases hop
  | _ => rfl

theorem eq_of_next?_close {s s' : Stage} (h : s.next? .rightParen = some s') :
    ∃ g, s = ⟨false, g + 1⟩ ∧ s' = ⟨false, g⟩ := by
  rcases s with ⟨- | -, - | g⟩
  · cases h
  · cases h
    exact ⟨g, rfl, rfl⟩
  · cases h
  · cases h

/-- What fits in behind an operand starts none, unless it is an operator that can be a sign. -/
theorem lead_of_next? {s : Stage} (h : next? kind ⟨false, g⟩ = some s)
    (hsign : ¬ (kind = .plus ∨ kind = .minus)) : kind.lead = .none := by
  cases kind with
  | plus | minus => simp at hsign
  | int | identifier | leftParen => cases h
  | _ => rfl

/-- No keyword, equals sign or semicolon fits in anywhere. -/
theorem fits_of_next? {s s' : Stage} (h : s.next? kind = some s') :
    kind.keyword? = none ∧ kind ≠ .equal ∧ kind ≠ .semicolon := by
  rcases s with ⟨- | -, g⟩ <;> cases kind <;> first | cases h; done | simp [Kind.keyword?]

/-! ## Courses -/

section Course

variable {token : Token String} {s s' : Stage} {tokens : Tokens}

theorem course_next (h : s.next? token.kind = some s') (rest : Tokens) :
    s.course (token :: rest) = s'.course rest := by
  rw [course, h]

/-- Where nothing is in view that fits in behind an operand, the expression ends. -/
theorem course_end (h : ∀ token ∈ tokens.head?, next? token.kind ⟨false, g⟩ = none) :
    course ⟨false, g⟩ tokens = (g, tokens) := by
  cases tokens with
  | nil => simp [course, owed]
  | cons token rest => simp [course, h token rfl, owed]

/-- An operand that is missing is one thing missing, and the expression goes on behind it. -/
theorem course_missing (h : ∀ token ∈ tokens.head?, token.kind.lead = .none) :
    course ⟨true, g⟩ tokens = charged 1 (course ⟨false, g⟩ tokens) := by
  cases tokens with
  | nil => simp [course, owed, charged]
  | cons token rest =>
    have hnone : next? token.kind ⟨true, g⟩ = none := next?_none (h token rfl)
    rw [course, course, hnone]
    cases hnext : next? token.kind ⟨false, g⟩ with
    | none => simp [owed, charged]
    | some s' => simp [charged, Nat.add_comm]

/-- A parenthesis that is missing is one thing missing. -/
theorem course_unclosed (hop : ∀ token ∈ tokens.head?, token.kind.binOp? = none)
    (hclose : ∀ token ∈ tokens.head?, token.kind ≠ .rightParen) :
    course ⟨false, g + 1⟩ tokens = charged 1 (course ⟨false, g⟩ tokens) := by
  have hend : ∀ n, course ⟨false, n⟩ tokens = (n, tokens) := fun n =>
    course_end fun token htoken => next?_other (hop token htoken) (hclose token htoken)
  rw [hend, hend, charged, Nat.add_comm]

/-- In front of an operator that can be a sign, a course is the same whether an operand has to come
or not. -/
theorem course_sign (hsign : token.kind = .plus ∨ token.kind = .minus)
    (g : Nat) (rest : Tokens) :
    course ⟨true, g⟩ (token :: rest) = course ⟨false, g⟩ (token :: rest) := by
  have hnext : ∀ b, next? token.kind ⟨b, g⟩ = some ⟨true, g⟩ := by
    rcases hsign with hkind | hkind <;> rw [hkind] <;> rintro (- | -) <;> rfl
  rw [course_next (hnext true), course_next (hnext false)]

/-- The expression ends at a semicolon. -/
theorem course_semicolon {close : Token String} (hclose : close.kind = .semicolon) (g : Nat)
    (rest : Tokens) : course ⟨false, g⟩ (close :: rest) = (g, close :: rest) := by
  apply course_end
  rintro _ ⟨⟩
  rw [hclose]
  rfl

end Course

/-! ## Tokens that all fit in -/

section Advance

variable {s s' : Stage} {ks : List (Kind String)}

theorem advance_append (s : Stage) (ks ks' : List (Kind String)) :
    s.advance (ks ++ ks') = (s.advance ks).bind (advance · ks') := by
  induction ks generalizing s with
  | nil => rfl
  | cons kind ks ih =>
    rw [List.cons_append, advance, advance]
    cases s.next? kind with
    | none => rfl
    | some s' => exact ih s'

/-- Where all tokens fit in, so does each of them. -/
theorem exists_next_of_mem (h : s.advance ks = some s') (hkind : kind ∈ ks) :
    ∃ t t' : Stage, t.next? kind = some t' := by
  rcases List.append_of_mem hkind with ⟨front, back, rfl⟩
  rw [advance_append] at h
  rcases Option.bind_eq_some_iff.1 h with ⟨t, -, h⟩
  rcases Option.bind_eq_some_iff.1 h with ⟨t', hnext, -⟩
  exact ⟨t, t', hnext⟩

/-- Tokens that fit in leave nothing missing. -/
theorem course_advance {used : Tokens} (h : s.advance used.kinds = some s') (rest : Tokens) :
    s.course (used ++ rest) = s'.course rest := by
  induction used generalizing s with
  | nil =>
    cases h
    rfl
  | cons token used ih =>
    rcases Option.bind_eq_some_iff.1 h with ⟨t, hnext, hadvance⟩
    rw [List.cons_append, course_next hnext, ih hadvance]

/-- What fits in fits in with one more group around it. -/
theorem next?_shift {b b' : Bool} {g g' : Nat} (h : next? kind ⟨b, g⟩ = some ⟨b', g'⟩) :
    next? kind ⟨b, g + 1⟩ = some ⟨b', g' + 1⟩ := by
  cases b <;> cases g <;> cases kind <;> cases h <;> rfl

theorem advance_shift {b b' : Bool} {g g' : Nat} (h : advance ⟨b, g⟩ ks = some ⟨b', g'⟩) :
    advance ⟨b, g + 1⟩ ks = some ⟨b', g' + 1⟩ := by
  induction ks generalizing b g with
  | nil =>
    cases h
    rfl
  | cons kind ks ih =>
    rcases Option.bind_eq_some_iff.1 h with ⟨⟨b₁, g₁⟩, hnext, hadvance⟩
    rw [advance, next?_shift hnext]
    exact ih hadvance

/-- Tokens behind which an operator and then others fit in. -/
theorem advance_operator {op : BinOp} {ks ks' : List (Kind String)}
    (h : advance ⟨true, g⟩ ks = some ⟨false, g⟩) (hop : kind.binOp? = some op)
    (h' : advance ⟨true, g⟩ ks' = some ⟨false, g⟩) :
    advance ⟨true, g⟩ (ks ++ kind :: ks') = some ⟨false, g⟩ := by
  rw [advance_append, h, Option.bind_some, advance, next?_operator hop]
  exact h'

/-- Derived tokens lead from where an operand has to come to behind it. -/
theorem advance_derivation {nt : Grammar.Nonterminal} {t : ExprTree String}
    (d : Grammar.Derivation nt ks t) (g : Nat) : advance ⟨true, g⟩ ks = some ⟨false, g⟩ := by
  induction d generalizing g with
  | add left right ihl ihr | sub left right ihl ihr | mul left right ihl ihr
  | div left right ihl ihr => exact advance_operator (ihl g) rfl (ihr g)
  | ofTerm term ih => exact ih g
  | ofUnary unary ih => exact ih g
  | ofPrimary primary ih => exact ih g
  | plus operand ih => exact ih g
  | minus operand ih => exact ih g
  | int v => rfl
  | name x => rfl
  | group inner ih =>
    rw [advance, next?_group rfl, Option.bind_some, advance_append, ih (g + 1)]
    rfl

end Advance

end Stage

/-- The tokens of an expression fit in, so there is no keyword, equals sign or semicolon. -/
theorem Grammar.Derivation.fits {nt : Nonterminal} {ks : List (Kind String)} {t : ExprTree String}
    (d : Derivation nt ks t) {kind : Kind String} (h : kind ∈ ks) :
    kind.keyword? = none ∧ kind ≠ .equal ∧ kind ≠ .semicolon := by
  rcases Stage.exists_next_of_mem (Stage.advance_derivation d 0) h with ⟨s, s', hnext⟩
  exact Stage.fits_of_next? hnext

/-- Neither is there a keyword or an equals sign in an expression and its semicolon. -/
theorem Grammar.Derivation.fits_closed {nt : Nonterminal} {ks : List (Kind String)}
    {t : ExprTree String} (d : Derivation nt ks t) {kind : Kind String}
    (h : kind ∈ ks ++ [.semicolon]) : kind.keyword? = none ∧ kind ≠ .equal := by
  rcases List.mem_append.1 h with h | h
  · exact ⟨(d.fits h).1, (d.fits h).2.1⟩
  · rw [List.mem_singleton.1 h]
    exact ⟨rfl, nofun⟩

/-! ## Readings -/

namespace Parse

/-- Unless something is nested too deeply, what is found is what is missing up to the tokens that
are left, however many groups are open around. -/
def Follows {α : Type} (needs : Bool) (tokens : Tokens) (parsed : Parsed α) : Prop :=
  ¬ TooDeep parsed.findings → ∀ g,
    Stage.course ⟨needs, g⟩ tokens
      = charged parsed.findings.length (Stage.course ⟨false, g⟩ parsed.rest)

namespace Follows

variable {α β : Type} {needs : Bool} {tokens : Tokens}

/-- Nothing is missing where nothing is read. -/
theorem nothing (x : α) : Follows false tokens ⟨x, tokens, []⟩ := by
  intro _ g
  exact (charged_zero _).symm

/-- Readings in a row find what is missing from each. -/
theorem andThen {first : Parsed α} {next : α → Tokens → Parsed β} (h : Follows needs tokens first)
    (h' : Follows false first.rest (next first.value first.rest)) :
    Follows needs tokens (first.andThen next) := by
  intro hdeep g
  rcases not_tooDeep_append hdeep with ⟨hfirst, hnext⟩
  rw [h hfirst g, h' hnext g, charged_charged, Parsed.findings_andThen, List.length_append,
    Parsed.rest_andThen]

/-- A token that fits in is read without a finding. -/
theorem token {token : Token String} {rest : Tokens} {needs' : Bool} {parsed : Parsed α}
    (hnext : ∀ g, Stage.next? token.kind ⟨needs, g⟩ = some ⟨needs', g⟩)
    (h : Follows needs' rest parsed) : Follows needs (token :: rest) parsed := by
  intro hdeep g
  rw [Stage.course_next (hnext g), h hdeep g]

end Follows

theorem Stops.binOp?_head {tokens : Tokens} (h : Stops .bottom tokens) :
    ∀ token ∈ tokens.head?, token.kind.binOp? = none := by
  intro token htoken
  rcases List.head?_eq_some_iff.1 htoken with ⟨rest, rfl⟩
  exact binOp?_of_stops_bottom h (.single .start) token.kind rfl

/-- Behind an expression in a group a parenthesis is read or missing. -/
theorem course_expect (eof : Span) {tokens : Tokens} (h : Stops .bottom tokens) (g : Nat) :
    Stage.course ⟨false, g + 1⟩ tokens
      = charged (expect eof .rightParen .group tokens).findings.length
        (Stage.course ⟨false, g⟩ (expect eof .rightParen .group tokens).rest) := by
  by_cases hclose : ∀ token ∈ tokens.head?, token.kind ≠ .rightParen
  · rw [expect_of_ne eof .group hclose]
    exact Stage.course_unclosed h.binOp?_head hclose
  · cases tokens with
    | nil => exact absurd (by simp) hclose
    | cons token rest =>
      have hkind : token.kind = .rightParen := by simpa using hclose
      have hnext : Stage.next? token.kind ⟨false, g + 1⟩ = some ⟨false, g⟩ := by
        rw [hkind]
        exact Stage.next?_close
      rw [expect_of_kind eof .group rest hkind, Stage.course_next hnext]
      exact (charged_zero _).symm

/-- Expressions are read as their courses say. -/
theorem reading_follows (eof : Span) :
    (∀ room goal tokens, Follows true tokens (operand eof room goal tokens)) ∧
    (∀ room floor left tokens, Follows false tokens (fold eof room floor left tokens)) ∧
    ∀ room floor goal tokens, Follows true tokens (expression eof room floor goal tokens) := by
  refine reading_induction eof
    (P := fun _ _ tokens parsed => Follows true tokens parsed)
    (Q := fun _ _ _ tokens parsed => Follows false tokens parsed)
    (R := fun _ _ _ tokens parsed => Follows true tokens parsed)
    ?nothing ?number ?name ?sign ?group ?full ?stop ?operator ?fullFold ?whole
  case nothing =>
    intro room goal tokens hlead _ g
    exact Stage.course_missing hlead
  case number =>
    intro room goal token v rest hlead
    exact .token (fun g => Stage.next?_number hlead) (.nothing _)
  case name =>
    intro room goal token x rest hlead
    exact .token (fun g => Stage.next?_name hlead) (.nothing _)
  case sign =>
    intro room goal token op rest hlead ih
    exact .token (fun g => Stage.next?_sign hlead) (ih.andThen (.nothing _))
  case group =>
    intro room goal token rest hlead ih hdeep g
    rcases not_tooDeep_append hdeep with ⟨hinner, -⟩
    -- Inside, one group more is open, so the induction is for any number of groups around.
    have hstops := (expression_stops eof).2 room .bottom .group rest
    rw [Stage.course_next (Stage.next?_group hlead), ih hinner (g + 1), course_expect eof hstops,
      charged_charged]
    simp
  case full =>
    intro goal token rest _ hdeep
    exact absurd (tooDeep_giveUp eof _) hdeep
  case stop =>
    intro room floor left tokens _
    exact .nothing left
  case operator =>
    intro room floor left token op rest hop _ ihRight ihFold
    exact .token (fun g => Stage.next?_operator hop) (ihRight.andThen (ihFold _ _))
  case fullFold =>
    intro floor left token op rest _ _ hdeep
    exact absurd (tooDeep_giveUp eof _) hdeep
  case whole =>
    intro room floor goal tokens ihOperand ihFold
    exact ihOperand.andThen (ihFold _ _)

/-- A whole expression that is not nested too deeply is read with as many findings as things are
missing from it, and up to where its course ends. -/
theorem expression_course {eof : Span} {room : Nat} {goal : Goal} {tokens : Tokens}
    (h : ¬ TooDeep (expression eof room .bottom goal tokens).findings) :
    Stage.course ⟨true, 0⟩ tokens
      = ((expression eof room .bottom goal tokens).findings.length,
        (expression eof room .bottom goal tokens).rest) := by
  have hstops := (expression_stops eof).2 room .bottom goal tokens
  rw [(reading_follows eof).2.2 room .bottom goal tokens h 0, Stage.course_end, charged]
  · rfl
  · intro token htoken
    exact Stage.next?_outside (hstops.binOp?_head token htoken)

end Parse

end LetCalc
