import LetCalc.Proofs.Program.Source
import LetCalc.Proofs.Token.Places

/-!
# Reports are lines

What is wrong with a source is worded on one line, whatever characters the source has: a line feed
is blank, so it is no part of a word or of a number, and it is not reported as a stray character
either.  Only the reason of a failed read comes from elsewhere.

Main results:

- Theorem `Piece.oneLine_front`: what is wrong with a piece of a text is worded on one line.
- Definition `Parse.Raises`: what a reading reports mentions tokens that it was given only.
- Theorem `Context.oneLine_of_mem_findings`: all that parsing finds is worded on one line.
-/

namespace LetCalc

/-! ## Texts on one line -/

/-- No line feed is in the text. -/
def OneLine (text : String) : Prop := '\n' ∉ text.toList

instance (text : String) : Decidable (OneLine text) := inferInstanceAs (Decidable (¬ _ ∈ _))

theorem oneLine_append {a b : String} : OneLine (a ++ b) ↔ OneLine a ∧ OneLine b := by
  rw [OneLine, String.toList_append, List.mem_append, not_or]
  rfl

/-- A text stays on one line between others that are on one line. -/
theorem OneLine.around {before text after : String} (hbefore : OneLine before)
    (htext : OneLine text) (hafter : OneLine after) : OneLine (before ++ text ++ after) :=
  oneLine_append.2 ⟨oneLine_append.2 ⟨hbefore, htext⟩, hafter⟩

theorem OneLine.repr (n : Nat) : OneLine n.repr := by
  intro hmem
  rw [Nat.toList_repr] at hmem
  have hdigit := Nat.isDigit_of_mem_toDigits (by decide) (by decide) hmem
  exact absurd hdigit (by decide)

/-- A text of characters of some sort is on one line if no line feed is of this sort. -/
theorem OneLine.of_all {P : Char → Bool} (hfeed : P '\n' = false) {text : String}
    (h : text.toList.all P = true) : OneLine text := by
  intro hmem
  have hnewline := List.all_eq_true.1 h _ hmem
  rw [hfeed] at hnewline
  cases hnewline

/-- A token of a source is written on one line. -/
theorem Kind.oneLine_text {kind : Kind String} (h : kind.isSpellable = true) :
    OneLine kind.text := by
  cases kind with
  | identifier x =>
    have hword : isWord x = true := (isName_iff.1 h).1
    unfold isWord at hword
    split at hword
    · cases hword
    · next c cs hlist =>
      rw [Bool.and_eq_true] at hword
      apply OneLine.of_all (P := continuesWord) (by decide)
      rw [text, hlist, List.all_cons, continuesWord_of_startsWord hword.1, hword.2]
      rfl
  | int v => exact .repr _
  | _ => decide

/-! ## Problems of pieces -/

/-- What is wrong with a piece of a text is worded on one line. -/
theorem Piece.oneLine_front {g : Glyph} {rest : List Glyph} {problem : Problem}
    (h : (front g rest).problem = some problem) : OneLine problem.message := by
  cases g with
  | malformed fault =>
    cases h
    decide
  | char c =>
    unfold front at h
    simp only at h
    split at h
    · cases h
    split at h
    · unfold slash at h
      repeat' split at h
      all_goals cases h
      decide
    split at h
    · next hdigit =>
      unfold number at h
      simp only at h
      split at h
      · cases h
      · obtain rfl := Option.some.inj h
        have hdigits :
            OneLine (.ofList (Glyph.chars (.char c :: rest.takeWhile Glyph.isDigit))) := by
          intro hmem
          rw [String.toList_ofList] at hmem
          rcases List.mem_filterMap.1 hmem with ⟨g, hg, hchar⟩
          obtain rfl : g = .char '\n' := by cases g <;> simp_all
          rcases List.mem_cons.1 hg with hg | hg
          · cases hg
            exact absurd hdigit (by decide)
          · exact absurd (List.mem_takeWhile_imp hg) (by decide)
        exact OneLine.around (by decide) hdigits (by decide)
    split at h
    · cases h
    split at h
    · cases h
    · next hblank _ _ _ _ _ =>
      obtain rfl := Option.some.inj h
      have hchar : OneLine c.toString := by
        intro hmem
        obtain rfl : '\n' = c := by simpa [Char.toString] using hmem
        exact absurd (by decide) hblank
      exact OneLine.around (by decide) hchar (by decide)

namespace Parse

/-! ## Problems of readings -/

theorem kinds_subset {rest tokens : Tokens} (h : rest <:+ tokens) : rest.kinds ⊆ tokens.kinds :=
  List.map_subset _ h.subset

/-- The problem mentions kinds of tokens from the list, or none. -/
def Mentions (kinds : List (Kind String)) : Problem → Prop
  | .tooDeep => True
  | .expected what found _ => OneLine what.text ∧ ∀ kind ∈ found, kind ∈ kinds
  | _ => False

theorem Mentions.mono {kinds more : List (Kind String)} {problem : Problem}
    (h : Mentions kinds problem) (hmore : kinds ⊆ more) : Mentions more problem := by
  unfold Mentions at h ⊢
  split
  · trivial
  · exact ⟨h.1, fun kind hkind => hmore (h.2 kind hkind)⟩
  · next hdeep hexpected =>
    split at h
    · exact hdeep rfl
    · exact hexpected _ _ _ rfl
    · exact h

/-- What the reading reports mentions the tokens only, and it leaves no others. -/
structure Raises {α : Type} (tokens : Tokens) (parsed : Parsed α) : Prop where
  rest : parsed.rest.kinds ⊆ tokens.kinds
  findings : ∀ f ∈ parsed.findings, Mentions tokens.kinds f.problem

namespace Raises

variable {α β : Type} {tokens : Tokens}

theorem andThen {first : Parsed α} {next : α → Tokens → Parsed β} (h : Raises tokens first)
    (h' : Raises first.rest (next first.value first.rest)) :
    Raises tokens (first.andThen next) := by
  refine ⟨List.Subset.trans h'.rest h.rest, ?_⟩
  intro f hf
  rw [Parsed.findings_andThen, List.mem_append] at hf
  rcases hf with hf | hf
  · exact h.findings f hf
  · exact (h'.findings f hf).mono h.rest

/-- A reading that reports nothing. -/
theorem nothing (value : α) {rest : Tokens} (h : rest <:+ tokens) :
    Raises tokens ⟨value, rest, []⟩ :=
  ⟨kinds_subset h, by simp⟩

theorem of_suffix {rest : Tokens} {parsed : Parsed α} (h : Raises rest parsed)
    (hsuffix : rest <:+ tokens) : Raises tokens parsed :=
  ⟨List.Subset.trans h.rest (kinds_subset hsuffix),
    fun f hf => (h.findings f hf).mono (kinds_subset hsuffix)⟩

/-- A reading that reports what is in view in place of what was expected. -/
theorem unexpected (eof : Span) (value : α) {what : Expected} (hwhat : OneLine what.text)
    (goal : Goal) {rest : Tokens} (h : rest <:+ tokens) :
    Raises tokens ⟨value, rest, [Parse.unexpected eof what goal tokens]⟩ := by
  refine ⟨kinds_subset h, ?_⟩
  intro f hf
  obtain rfl := List.mem_singleton.1 hf
  refine ⟨hwhat, ?_⟩
  intro kind hkind
  cases tokens with
  | nil => cases hkind
  | cons token rest =>
    cases hkind
    exact List.mem_cons_self ..

end Raises

theorem expect_raises (eof : Span) {kind : Kind String} (hkind : OneLine (Expected.token kind).text)
    (goal : Goal) (tokens : Tokens) : Raises tokens (expect eof kind goal tokens) := by
  unfold expect
  split
  · split
    · exact .nothing _ (List.suffix_cons _ _)
    · exact .unexpected eof _ hkind goal (List.suffix_refl _)
  · exact .unexpected eof _ hkind goal (List.suffix_refl _)

theorem giveUp_raises (eof : Span) (tokens : Tokens) : Raises tokens (giveUp eof tokens) := by
  refine ⟨kinds_subset (skipExpression_suffix 0 tokens), ?_⟩
  intro f hf
  obtain rfl := List.mem_singleton.1 hf
  trivial

theorem boundName_raises (eof : Span) (tokens : Tokens) : Raises tokens (boundName eof tokens) := by
  unfold boundName
  split
  · exact .unexpected eof _ (by decide) _ (List.suffix_refl _)
  · split
    · exact .nothing _ (List.suffix_cons _ _)
    · exact .unexpected eof _ (by decide) _ (List.suffix_refl _)

/-- What the reading of an expression reports mentions its tokens only. -/
theorem reading_raises (eof : Span) :
    (∀ room goal tokens, Raises tokens (operand eof room goal tokens)) ∧
    (∀ room floor left tokens, Raises tokens (fold eof room floor left tokens)) ∧
    ∀ room floor goal tokens, Raises tokens (expression eof room floor goal tokens) := by
  refine reading_induction eof
    (P := fun _ _ tokens parsed => Raises tokens parsed)
    (Q := fun _ _ _ tokens parsed => Raises tokens parsed)
    (R := fun _ _ _ tokens parsed => Raises tokens parsed)
    ?nothing ?number ?name ?sign ?group ?full ?stop ?operator ?fullFold ?whole
  case nothing =>
    intro room goal tokens _
    exact .unexpected eof _ (by decide) goal (List.suffix_refl _)
  case number =>
    intro room goal token v rest _
    exact .nothing _ (List.suffix_cons _ _)
  case name =>
    intro room goal token x rest _
    exact .nothing _ (List.suffix_cons _ _)
  case sign =>
    intro room goal token op rest _ ih
    apply Raises.of_suffix _ (List.suffix_cons token rest)
    exact ih.andThen (.nothing _ (List.suffix_refl _))
  case group =>
    intro room goal token rest _ ih
    apply Raises.of_suffix _ (List.suffix_cons token rest)
    have hparen : OneLine (Expected.token .rightParen).text := by decide
    refine ih.andThen ((expect_raises eof hparen _ _).andThen ?_)
    exact .nothing _ (List.suffix_refl _)
  case full =>
    intro goal token rest _
    exact giveUp_raises eof _
  case stop =>
    intro room floor left tokens _
    exact .nothing _ (List.suffix_refl _)
  case operator =>
    intro room floor left token op rest _ _ ihRight ihFold
    apply Raises.of_suffix _ (List.suffix_cons token rest)
    exact ihRight.andThen (ihFold _ _)
  case fullFold =>
    intro floor left token op rest _ _
    exact giveUp_raises eof _
  case whole =>
    intro room floor goal tokens ihOperand ihFold
    exact ihOperand.andThen (ihFold _ _)

theorem stmt_raises (eof : Span) (word : Kind.Keyword) (span : Span) (tokens : Tokens) :
    Raises tokens (stmt eof word span tokens) := by
  have hexpression := (reading_raises eof).2.2
  have hequal : OneLine (Expected.token .equal).text := by decide
  have hsemicolon : OneLine (Expected.token .semicolon).text := by decide
  cases word with
  | bind =>
    have hstmt : stmt eof .bind span tokens = bindStmt eof span tokens := rfl
    rw [hstmt, bindStmt]
    refine (boundName_raises eof tokens).andThen ?_
    refine (expect_raises eof hequal _ _).andThen ?_
    refine (hexpression _ _ _ _).andThen ?_
    refine (expect_raises eof hsemicolon _ _).andThen ?_
    exact .nothing _ (List.suffix_refl _)
  | print =>
    have hstmt : stmt eof .print span tokens = printStmt eof span tokens := rfl
    rw [hstmt, printStmt]
    refine (hexpression _ _ _ _).andThen ?_
    refine (expect_raises eof hsemicolon _ _).andThen ?_
    exact .nothing _ (List.suffix_refl _)

/-- What the reading of a source reports mentions its tokens only. -/
theorem stmts_raises (eof : Span) (tokens : Tokens) : Raises tokens (stmts eof tokens) := by
  refine stmts_induction eof (P := fun tokens parsed => Raises tokens parsed)
    ?nil ?keyword ?skip tokens
  case nil => exact .nothing _ (List.suffix_refl _)
  case keyword =>
    intro token word rest _ ih
    apply Raises.of_suffix _ (List.suffix_cons token rest)
    refine (stmt_raises eof word _ rest).andThen (ih.andThen ?_)
    exact .nothing _ (List.suffix_refl _)
  case skip =>
    intro token rest _ ih
    exact (Raises.unexpected eof () (by decide) _ (List.suffix_cons token rest)).andThen ih

end Parse

/-! ## Problems of sources -/

/-- A problem that mentions tokens of a source is worded on one line. -/
theorem Parse.Mentions.oneLine {kinds : List (Kind String)} {problem : Problem}
    (h : Mentions kinds problem) (hkinds : ∀ kind ∈ kinds, kind.isSpellable = true) :
    OneLine problem.message := by
  unfold Mentions at h
  split at h
  · decide
  · next what found goal =>
    have hfound : OneLine (Kind.describe found) := by
      cases found with
      | none => decide
      | some kind => exact Kind.oneLine_text (hkinds kind (h.2 kind rfl))
    have hgoal : OneLine goal.text := by cases goal <;> decide
    have hexpected : OneLine ("expected " ++ what.text ++ ", got '") :=
      OneLine.around (by decide) h.1 (by decide)
    have hgot : OneLine ("expected " ++ what.text ++ ", got '" ++ Kind.describe found
        ++ "' while parsing ") := OneLine.around hexpected hfound (by decide)
    exact oneLine_append.2 ⟨hgot, hgoal⟩
  · exact h.elim

/-- All that parsing finds is worded on one line, if the reason of a failed read is. -/
theorem Context.oneLine_of_mem_findings (ctx : Context) (path : Option String) {input : Input}
    (hfailure : ∀ reason ∈ input.text.failure, OneLine reason) {f : Finding}
    (hf : f ∈ (ctx.parse path input).journal.findings) : OneLine f.problem.message := by
  rw [(ctx.findings_parse path input).mem_iff, List.mem_append] at hf
  rcases hf with hf | hf
  · rw [Input.scanFindings, input.text.findings_scan.mem_iff, List.mem_append] at hf
    rcases hf with hf | hf
    · rw [cutFindings, Option.mem_toList, Option.map_eq_some_iff] at hf
      rcases hf with ⟨reason, hreason, rfl⟩
      exact oneLine_append.2 ⟨by decide, hfailure reason hreason⟩
    · rcases Piece.exists_of_mem_findings hf with ⟨before, piece, after, hpieces, hproblem, -⟩
      have hmem : piece ∈ pieces input.text.glyphs := by
        rw [hpieces]
        simp
      rcases Piece.exists_front_of_mem hmem with ⟨g, rest, rfl⟩
      exact Piece.oneLine_front hproblem
  · have hmentions := (Parse.stmts_raises input.text.eof input.tokens).findings f hf
    exact hmentions.oneLine fun kind => input.isSpellable_of_mem_tokens

end LetCalc
