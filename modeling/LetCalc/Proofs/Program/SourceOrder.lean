import LetCalc.Proofs.Program.States
import Mathlib.Order.Defs.PartialOrder

/-!
# Reports in source order

The scanner reports a problem when it has read past it, and the parser reports at the token in view,
from any depth of nesting.  Still the reports of a source come in the order of the places that they
name: what the scanner records stands in the order of the source, a reading reports at tokens that
lie further and further on, and its reports are filed right behind the token that they concern.

Main results:

- Theorem `Context.findings_parse_eq`: the findings of a source in the order in which they are made.
- Theorem `Piece.inOrder_journal`: what is recorded about a text stands in order.
- Theorems `Parse.reading_visits` and `Parse.stmts_visits`: a reading reports further and further
  on.
- Theorem `interleave_in_order`: findings filed among records that stand in order stand in order.
- Theorem `Context.reported_in_order`: the reports of a source stand in order.
-/

namespace LetCalc

/-! ## Places in order -/

instance : Preorder Pos where
  le_refl p := Or.inr ⟨rfl, Nat.le_refl _⟩
  le_trans p q r hpq hqr := by
    rw [Pos.le_def] at *
    omega
  lt_iff_le_not_ge p q := by
    rw [Pos.lt_def, Pos.le_def, Pos.le_def]
    omega

/-- The place of what is recorded, if it has one. -/
def Record.span? : Record → Option Span
  | view v => some v.span
  | finding f => some f.span
  | _ => none

/-- The records stand in source order, and what comes into view stands in front of all that is
recorded later. -/
def Journal.InOrder (journal : Journal) : Prop :=
  journal.Pairwise fun r r' => ∀ s ∈ r.span?, ∀ s' ∈ r'.span?,
    s.first ≤ s'.first ∧ (r.view?.isSome = true → s.first < s'.first)

/-- What comes into view stands further and further on. -/
theorem Journal.InOrder.shown {journal : Journal} (h : journal.InOrder) :
    (journal.shown.map View.span).Pairwise fun s s' => s.first < s'.first := by
  refine List.pairwise_map.2 (h.filterMap Record.view? ?_)
  intro r r' hlt v hv v' hv'
  cases r <;> cases hv
  cases r' <;> cases hv'
  exact (hlt _ rfl _ rfl).2 rfl

/-! ## Findings among records -/

/-- The findings of a journal and others among them: those that concern what comes into view right
behind it, and last those that concern nothing in the journal. -/
def interleave (findings : List Finding) : Journal → List Finding
  | [] => findings
  | .view v :: rest =>
    findings.takeWhile (·.span = v.span)
      ++ interleave (findings.dropWhile (·.span = v.span)) rest
  | .finding f :: rest => f :: interleave findings rest
  | _ :: rest => interleave findings rest

theorem mem_interleave {findings : List Finding} {journal : Journal} {f : Finding}
    (h : f ∈ interleave findings journal) : f ∈ findings ∨ f ∈ journal.findings := by
  induction journal generalizing findings with
  | nil => exact Or.inl h
  | cons record rest ih =>
    cases record with
    | view v =>
      rcases List.mem_append.1 h with h | h
      · exact Or.inl ((List.takeWhile_sublist _).mem h)
      · exact (ih h).imp_left (List.dropWhile_sublist _).mem
    | finding g =>
      rcases List.mem_cons.1 h with rfl | h
      · exact Or.inr (List.mem_cons_self ..)
      · exact (ih h).imp_right (List.mem_cons_of_mem _)
    | fault | parsed | unbound | bound => exact ih h

/-- Records of byte sequences that came into view make no difference. -/
theorem interleave_lexical (findings : List Finding) (journal : Journal) :
    interleave findings journal.lexical = interleave findings journal := by
  induction journal generalizing findings with
  | nil => rfl
  | cons record rest ih =>
    cases record with
    | view v => exact congrArg (_ ++ ·) (ih _)
    | finding f => exact congrArg (f :: ·) (ih _)
    | fault | parsed | unbound | bound => exact ih _

/-- Before the first view nothing is filed. -/
theorem interleave_append {before : Journal} (h : before.shown = []) (findings : List Finding)
    (rest : Journal) :
    interleave findings (before ++ rest) = before.findings ++ interleave findings rest := by
  induction before with
  | nil => rfl
  | cons record before ih =>
    cases record with
    | view v => cases h
    | finding f => exact congrArg (f :: ·) (ih h)
    | fault | parsed | unbound | bound => exact ih h

namespace Weaving

/-- Filing appends the findings that concern the token to those of the records. -/
theorem findings_file (w : Weaving) (span : Span) :
    Journal.findings (w.file span).records.toList
      = Journal.findings w.records.toList ++ w.findings.takeWhile (·.span = span) := by
  rw [file, Array.toList_appendList, Journal.findings_append, Journal.findings_map_finding]

/-- Records that are filed one by one leave the findings of both, each in its place. -/
theorem findings_finish (scanned : Journal) (w : Weaving) :
    (scanned.foldl push w).finish.findings
      = Journal.findings w.records.toList ++ interleave w.findings scanned := by
  induction scanned generalizing w with
  | nil =>
    rw [List.foldl_nil, finish, Journal.findings_append, Journal.findings_map_finding]
    rfl
  | cons record rest ih =>
    rw [List.foldl_cons, ih]
    cases record with
    | view v =>
      have hview : Journal.findings (w.records.push (.view v)).toList
          = Journal.findings w.records.toList := by
        simp [Journal.findings, Record.finding?]
      rw [interleave, ← List.append_assoc, ← hview]
      exact congrArg (· ++ _) (findings_file ⟨w.records.push (.view v), w.findings⟩ v.span)
    | finding f => simp [push, Record.view?, interleave, Journal.findings, Record.finding?]
    | fault | parsed | unbound | bound =>
      simp [push, Record.view?, interleave, Journal.findings, Record.finding?]

end Weaving

/-- What is found by reading on from a view is filed among the records that follow the view. -/
theorem findings_weave_eq (v : View String) (findings : List Finding) (scanned : Journal) :
    (weave v.span findings scanned).findings = interleave findings (.view v :: scanned) := by
  rw [weave, Weaving.findings_finish, Weaving.findings_file]
  rfl

/-- The findings of a source in the order in which they are made: those of the reading are filed
among those of the scan. -/
theorem Context.findings_parse_eq (ctx : Context) (path : Option String) (input : Input) :
    (ctx.parse path input).journal.findings
      = input.text.opening.findings
        ++ interleave (Parse.stmts input.text.eof input.tokens).findings input.text.scan := by
  rcases Parser.ofInput_cases path input with ⟨before, v, after, hscan, hbefore, hparser⟩
  have hshown : before.shown = [] := by
    rw [← List.length_eq_zero_iff, Journal.length_shown, hbefore]
  have hprogram := (Parser.program_ofInput path input).2
  rw [hparser] at hprogram
  have hview : Journal.findings [.view v] = [] := rfl
  rw [journal_parse, hparser, hprogram, findings_weave_eq, hscan, interleave_append hshown,
    Journal.findings_append, Journal.findings_append, hview, List.append_nil, List.append_assoc]

/-! ## What the scanner records -/

namespace Piece

/-- What is recorded about a piece stands where the piece starts. -/
theorem first_of_mem_records {p : Pos} {piece : Piece} {r : Record} {s : Span}
    (hr : r ∈ piece.records p) (hs : s ∈ r.span?) : s.first = p := by
  rw [records, List.mem_append, Option.mem_toList, Option.mem_toList, Option.map_eq_some_iff,
    Option.map_eq_some_iff] at hr
  rcases hr with ⟨problem, -, rfl⟩ | ⟨kind, -, rfl⟩
  · cases hs
    unfold place
    split
    · rfl
    · rfl
  · cases hs
    rfl

/-- A problem is recorded before the token that has it. -/
theorem inOrder_records (p : Pos) (piece : Piece) : (piece.records p).InOrder := by
  have hfirst : ∀ r ∈ piece.records p, ∀ s ∈ r.span?, s.first = p :=
    fun r hr s hs => first_of_mem_records hr hs
  rcases piece with ⟨glyphs, - | kind, - | problem⟩
  · exact List.Pairwise.nil
  · exact List.pairwise_singleton ..
  · exact List.pairwise_singleton ..
  · refine List.pairwise_pair.2 fun s hs s' hs' => ⟨?_, nofun⟩
    rw [hfirst _ (List.mem_cons_self ..) s hs,
      hfirst _ (List.mem_cons_of_mem _ (List.mem_cons_self ..)) s' hs']

/-- What is recorded about pieces, and last the end of the file, stands in order. -/
theorem inOrder_journal (p : Pos) {ps : List Piece} (h : ∀ piece ∈ ps, piece.glyphs ≠ []) :
    let records := journal p ps ++ [.view (.eof (.single (p.afterAll (ps.flatMap glyphs))))]
    (∀ r ∈ records, ∀ s ∈ r.span?, p ≤ s.first) ∧ records.InOrder := by
  induction ps generalizing p with
  | nil =>
    constructor
    · intro r hr s hs
      cases List.mem_singleton.1 hr
      cases hs
      exact le_refl p
    · exact List.pairwise_singleton ..
  | cons piece ps ih =>
    have hlt := p.lt_afterAll (h piece (List.mem_cons_self ..))
    have hps : ∀ piece' ∈ ps, piece'.glyphs ≠ [] :=
      fun piece' hpiece' => h piece' (List.mem_cons_of_mem _ hpiece')
    rcases ih (p.afterAll piece.glyphs) hps with ⟨hbehind, hrest⟩
    rw [journal, List.flatMap_cons, Pos.afterAll_append, List.append_assoc]
    constructor
    · intro r hr s hs
      rcases List.mem_append.1 hr with hr | hr
      · exact (first_of_mem_records hr hs).ge
      · exact (hlt.trans_le (hbehind r hr s hs)).le
    · refine List.pairwise_append.2 ⟨inOrder_records p piece, hrest, ?_⟩
      intro r hr r' hr' s hs s' hs'
      have hfirst : s.first < s'.first := by
        rw [first_of_mem_records hr hs]
        exact hlt.trans_le (hbehind r' hr' s' hs')
      exact ⟨hfirst.le, fun _ => hfirst⟩

/-- What is recorded about the pieces of a text stands at the places of items. -/
theorem exists_placeOf {glyphs : List Glyph} {i : Nat} {ps : List Piece}
    (h : glyphs.drop i = ps.flatMap Piece.glyphs) {r : Record}
    (hr : r ∈ journal (placeOf glyphs i) ps) {s : Span} (hs : s ∈ r.span?) :
    ∃ j, s.first = placeOf glyphs j := by
  induction ps generalizing i with
  | nil => cases hr
  | cons piece ps ih =>
    rw [List.flatMap_cons] at h
    rw [journal, List.mem_append, ← placeOf_add h] at hr
    rcases hr with hr | hr
    · exact ⟨i, first_of_mem_records hr hs⟩
    · refine ih ?_ hr
      rw [← List.drop_drop, h, List.drop_left]

end Piece

namespace Text

variable {text : Text} (h : text.failure = none)
include h

/-- The tokens and problems of a text that could be read are those of its pieces. -/
theorem lexical_scan :
    text.scan.lexical
      = Piece.journal .start (pieces text.glyphs)
        ++ [.view (.eof (.single (Pos.start.afterAll text.glyphs)))] := by
  rcases text with ⟨glyphs, failure⟩
  obtain rfl : failure = none := h
  exact scanned_eq_journal .start glyphs

/-- The tokens and problems of a text that could be read stand in order. -/
theorem inOrder_scan : text.scan.lexical.InOrder := by
  have hne : ∀ piece ∈ pieces text.glyphs, piece.glyphs ≠ [] := fun _ => Piece.glyphs_ne_nil
  have horder := (Piece.inOrder_journal .start hne).2
  rw [flatMap_pieces] at horder
  rwa [lexical_scan h]

/-- The tokens and problems of a text that could be read stand at the places of items. -/
theorem exists_placeOf {r : Record} (hr : r ∈ text.scan.lexical) {s : Span} (hs : s ∈ r.span?) :
    ∃ i, s.first = placeOf text.glyphs i := by
  rw [lexical_scan h, List.mem_append] at hr
  rcases hr with hr | hr
  · exact Piece.exists_placeOf (i := 0) (flatMap_pieces text.glyphs).symm hr hs
  · cases List.mem_singleton.1 hr
    cases hs
    refine ⟨text.glyphs.length, ?_⟩
    rw [placeOf_eq_afterAll, List.take_length]
    rfl

end Text

/-! ## What a reading reports -/

namespace Parse

/-- The findings are made one after the other at tokens in view, each as far on as the one before
or further; `rest` are the tokens behind all of them. -/
inductive Visits (eof : Span) : Tokens → List Finding → Tokens → Prop where
  | nil {tokens rest : Tokens} (h : rest <:+ tokens) : Visits eof tokens [] rest
  | cons {tokens here rest : Tokens} {f : Finding} {findings : List Finding}
      (hhere : here <:+ tokens) (hspan : f.span = (here.view eof).span)
      (h : Visits eof here findings rest) : Visits eof tokens (f :: findings) rest

namespace Visits

variable {eof : Span} {tokens mid rest : Tokens} {findings more : List Finding}

/-- Tokens that are passed over before make no difference. -/
theorem of_suffix (hsuffix : mid <:+ tokens) (h : Visits eof mid findings rest) :
    Visits eof tokens findings rest := by
  cases h with
  | nil hrest => exact nil (hrest.trans hsuffix)
  | cons hhere hspan hfindings => exact cons (hhere.trans hsuffix) hspan hfindings

/-- Findings that are made further on come behind. -/
theorem append (h : Visits eof tokens findings mid) (hmore : Visits eof mid more rest) :
    Visits eof tokens (findings ++ more) rest := by
  induction h with
  | nil hsuffix => exact hmore.of_suffix hsuffix
  | cons hhere hspan _ ih => exact cons hhere hspan (ih hmore)

/-- Reading that goes on without a finding makes no difference. -/
theorem done (h : Visits eof tokens findings rest) : Visits eof tokens (findings ++ []) rest :=
  h.append (nil (List.suffix_refl rest))

/-- A finding at the token in view. -/
theorem single {f : Finding} (hspan : f.span = (tokens.view eof).span) (hrest : rest <:+ tokens) :
    Visits eof tokens [f] rest :=
  cons (List.suffix_refl tokens) hspan (nil hrest)

end Visits

theorem expect_visits (eof : Span) (kind : Kind String) (goal : Goal) (tokens : Tokens) :
    Visits eof tokens (expect eof kind goal tokens).findings
      (expect eof kind goal tokens).rest := by
  unfold expect
  split
  · split
    · exact .nil (List.suffix_cons _ _)
    · exact .single rfl (List.suffix_refl _)
  · exact .single rfl (List.suffix_refl _)

theorem boundName_visits (eof : Span) (tokens : Tokens) :
    Visits eof tokens (boundName eof tokens).findings (boundName eof tokens).rest := by
  unfold boundName
  split
  · exact .single rfl (List.suffix_refl _)
  · split
    · exact .nil (List.suffix_cons _ _)
    · exact .single rfl (List.suffix_refl _)

theorem giveUp_visits (eof : Span) (tokens : Tokens) :
    Visits eof tokens (giveUp eof tokens).findings (giveUp eof tokens).rest :=
  .single rfl (skipExpression_suffix 0 tokens)

/-- Reading an expression reports further and further on. -/
theorem reading_visits (eof : Span) :
    (∀ room goal tokens, Visits eof tokens (operand eof room goal tokens).findings
      (operand eof room goal tokens).rest) ∧
    (∀ room floor left tokens, Visits eof tokens (fold eof room floor left tokens).findings
      (fold eof room floor left tokens).rest) ∧
    ∀ room floor goal tokens, Visits eof tokens (expression eof room floor goal tokens).findings
      (expression eof room floor goal tokens).rest := by
  refine reading_induction eof
    (P := fun _ _ tokens parsed => Visits eof tokens parsed.findings parsed.rest)
    (Q := fun _ _ _ tokens parsed => Visits eof tokens parsed.findings parsed.rest)
    (R := fun _ _ _ tokens parsed => Visits eof tokens parsed.findings parsed.rest)
    ?nothing ?number ?name ?sign ?group ?full ?stop ?operator ?fullFold ?whole
  case nothing =>
    intro room goal tokens _
    exact .single rfl (List.suffix_refl _)
  case number =>
    intro room goal token v rest _
    exact .nil (List.suffix_cons _ _)
  case name =>
    intro room goal token x rest _
    exact .nil (List.suffix_cons _ _)
  case sign =>
    intro room goal token op rest _ ih
    exact ih.done.of_suffix (List.suffix_cons _ _)
  case group =>
    intro room goal token rest _ ih
    have hclosed := ih.append (expect_visits eof .rightParen .group _).done
    exact hclosed.of_suffix (List.suffix_cons _ _)
  case full =>
    intro goal token rest _
    exact giveUp_visits eof _
  case stop =>
    intro room floor left tokens _
    exact .nil (List.suffix_refl _)
  case operator =>
    intro room floor left token op rest _ _ ihRight ihFold
    exact (ihRight.append (ihFold _ _)).of_suffix (List.suffix_cons _ _)
  case fullFold =>
    intro floor left token op rest _ _
    exact giveUp_visits eof _
  case whole =>
    intro room floor goal tokens ihOperand ihFold
    exact ihOperand.append (ihFold _ _)

theorem stmt_visits (eof : Span) (word : Kind.Keyword) (span : Span) (tokens : Tokens) :
    Visits eof tokens (stmt eof word span tokens).findings (stmt eof word span tokens).rest := by
  have hexpression := (reading_visits eof).2.2
  cases word with
  | bind =>
    refine (boundName_visits eof tokens).append ?_
    refine (expect_visits eof .equal _ _).append ?_
    exact (hexpression _ _ _ _).append (expect_visits eof .semicolon _ _).done
  | print => exact (hexpression _ _ _ _).append (expect_visits eof .semicolon _ _).done

/-- Reading a source reports further and further on. -/
theorem stmts_visits (eof : Span) (tokens : Tokens) :
    Visits eof tokens (stmts eof tokens).findings [] := by
  refine stmts_induction eof (P := fun tokens parsed => Visits eof tokens parsed.findings [])
    ?nil ?keyword ?skip tokens
  case nil => exact .nil (List.suffix_refl _)
  case keyword =>
    intro token word rest _ ih
    refine .of_suffix (List.suffix_cons token rest) ((stmt_visits eof word _ rest).append ?_)
    exact ih.done
  case skip =>
    intro token rest _ ih
    exact (Visits.single rfl (List.suffix_cons token rest)).append ih

/-- The places of some tokens, and last the end of the file. -/
def places (eof : Span) (tokens : Tokens) : List Span := tokens.map Token.span ++ [eof]

/-- What is in view stands at the first of these places. -/
theorem places_eq_cons (eof : Span) (tokens : Tokens) :
    ∃ more, places eof tokens = (tokens.view eof).span :: more := by
  cases tokens with
  | nil => exact ⟨[], rfl⟩
  | cons token rest => exact ⟨places eof rest, rfl⟩

/-- Where the tokens stand further and further on, so does what is found there. -/
theorem Visits.in_order {eof : Span} {tokens rest : Tokens} {findings : List Finding}
    (h : Visits eof tokens findings rest)
    (hplaces : (places eof tokens).Pairwise fun s s' => s.first < s'.first) :
    (findings.Pairwise fun f f' => f.span.first ≤ f'.span.first) ∧
      ∀ f ∈ findings, f.span ∈ places eof tokens := by
  induction h with
  | nil => exact ⟨List.Pairwise.nil, by simp⟩
  | @cons tokens here rest f findings hhere hspan _ ih =>
    have hsuffix : places eof here <:+ places eof tokens := by
      rcases hhere with ⟨front, rfl⟩
      exact ⟨front.map Token.span, by simp [places]⟩
    have hlater := hplaces.sublist hsuffix.sublist
    rcases ih hlater with ⟨hfindings, hmem⟩
    rcases places_eq_cons eof here with ⟨more, hmore⟩
    rw [← hspan] at hmore
    constructor
    · refine List.pairwise_cons.2 ⟨?_, hfindings⟩
      intro g hg
      have hplace := hmem g hg
      rw [hmore] at hplace hlater
      rcases List.mem_cons.1 hplace with heq | hplace
      · rw [heq]
      · exact ((List.pairwise_cons.1 hlater).1 _ hplace).le
    · intro g hg
      apply hsuffix.mem
      rcases List.mem_cons.1 hg with rfl | hg
      · rw [hmore]
        exact List.mem_cons_self ..
      · exact hmem g hg

end Parse

/-- What comes into view of a source stands at the places of its tokens, and last of its end. -/
theorem Input.span_shown (input : Input) :
    input.text.scan.shown.map View.span = Parse.places input.text.eof input.tokens := by
  rw [Text.shown_scan, Parse.places, tokens, Text.tokens_scan, List.map_append, List.map_map]
  rfl

/-! ## Reports of a source -/

theorem Journal.mem_shown {journal : Journal} {v : View String} :
    v ∈ journal.shown ↔ Record.view v ∈ journal := by
  rw [Journal.shown, List.mem_filterMap]
  constructor
  · rintro ⟨r, hr, hv⟩
    cases r <;> cases hv
    exact hr
  · intro hv
    exact ⟨_, hv, rfl⟩

theorem Journal.mem_findings {journal : Journal} {f : Finding} :
    f ∈ journal.findings ↔ Record.finding f ∈ journal := by
  rw [Journal.findings, List.mem_filterMap]
  constructor
  · rintro ⟨r, hr, hf⟩
    cases r <;> cases hf
    exact hr
  · intro hf
    exact ⟨_, hf, rfl⟩

section InOrder

variable {findings : List Finding} {journal : Journal}

/-- Findings that concern views of a journal, filed among its own, stand where its records do. -/
theorem exists_record_of_mem_interleave
    (hplaces : ∀ f ∈ findings, f.span ∈ journal.shown.map View.span) {f : Finding}
    (hf : f ∈ interleave findings journal) : ∃ r ∈ journal, f.span ∈ r.span? := by
  rcases mem_interleave hf with hf | hf
  · rcases List.mem_map.1 (hplaces f hf) with ⟨v, hv, hspan⟩
    exact ⟨.view v, Journal.mem_shown.1 hv, congrArg some hspan⟩
  · exact ⟨.finding f, Journal.mem_findings.1 hf, rfl⟩

/-- What is left to be filed behind a view stands behind it. -/
theorem lt_of_mem_dropWhile {v : View String}
    (hfindings : findings.Pairwise fun f f' => f.span.first ≤ f'.span.first)
    (hplaces : ∀ f ∈ findings, f.span = v.span ∨ v.span.first < f.span.first) {f : Finding}
    (hf : f ∈ findings.dropWhile (·.span = v.span)) : v.span.first < f.span.first := by
  induction findings with
  | nil => cases hf
  | cons g findings ih =>
    rcases List.pairwise_cons.1 hfindings with ⟨hg, hrest⟩
    by_cases hspan : g.span = v.span
    · rw [List.dropWhile_cons_of_pos (by simpa using hspan)] at hf
      exact ih hrest (fun f hf => hplaces f (List.mem_cons_of_mem _ hf)) hf
    · rw [List.dropWhile_cons_of_neg (by simpa using hspan)] at hf
      have hlt := (hplaces g (List.mem_cons_self ..)).resolve_left hspan
      rcases List.mem_cons.1 hf with rfl | hf
      · exact hlt
      · exact hlt.trans_le (hg f hf)

/-- Findings that concern views of a journal, and stand in order as the journal does, stand in order
among its own. -/
theorem interleave_in_order (hjournal : journal.InOrder)
    (hfindings : findings.Pairwise fun f f' => f.span.first ≤ f'.span.first)
    (hplaces : ∀ f ∈ findings, f.span ∈ journal.shown.map View.span) :
    (interleave findings journal).Pairwise fun f f' => f.span.first ≤ f'.span.first := by
  induction journal generalizing findings with
  | nil => exact hfindings
  | cons record rest ih =>
    rcases List.pairwise_cons.1 hjournal with ⟨hrecord, hrest⟩
    cases record with
    | fault | parsed | unbound | bound => exact ih hrest hfindings hplaces
    | finding f =>
      have hlater : ∀ f ∈ findings, f.span ∈ (Journal.shown rest).map View.span := hplaces
      refine List.pairwise_cons.2 ⟨?_, ih hrest hfindings hlater⟩
      intro g hg
      rcases exists_record_of_mem_interleave hlater hg with ⟨r, hr, hspan⟩
      exact (hrecord r hr _ rfl _ hspan).1
    | view v =>
      have hbehind : ∀ s ∈ (Journal.shown rest).map View.span, v.span.first < s.first := by
        intro s hs
        rcases List.mem_map.1 hs with ⟨w, hw, rfl⟩
        exact (hrecord _ (Journal.mem_shown.1 hw) _ rfl _ rfl).2 rfl
      have hhere : ∀ f ∈ findings, f.span = v.span ∨ f.span ∈ (Journal.shown rest).map View.span :=
        fun f hf => List.mem_cons.1 (hplaces f hf)
      -- What concerns the view is filed here; all the rest concerns views that are to come.
      have hleft : ∀ f ∈ findings.dropWhile (·.span = v.span),
          f.span ∈ (Journal.shown rest).map View.span := by
        intro f hf
        have hlt := lt_of_mem_dropWhile hfindings
          (fun g hg => (hhere g hg).imp_right (hbehind _)) hf
        refine (hhere f ((List.dropWhile_sublist _).mem hf)).resolve_left ?_
        intro heq
        rw [heq] at hlt
        exact lt_irrefl _ hlt
      have hfiled : ∀ f ∈ findings.takeWhile (·.span = v.span), f.span = v.span := by
        intro f hf
        simpa using List.mem_takeWhile_imp hf
      rw [interleave]
      refine List.pairwise_append.2 ⟨?_, ?_, ?_⟩
      · apply List.pairwise_of_forall_mem_list
        intro f hf g hg
        rw [hfiled f hf, hfiled g hg]
      · exact ih hrest (hfindings.sublist (List.dropWhile_sublist _)) hleft
      · intro f hf g hg
        rcases exists_record_of_mem_interleave hleft hg with ⟨r, hr, hspan⟩
        rw [hfiled f hf]
        exact (hrecord r hr _ rfl _ hspan).1

end InOrder

namespace Context

variable (ctx : Context) (path : Option String) {input : Input}

/-- What is found in a source that could be read, filed among what is recorded about it. -/
theorem findings_parse_lexical (h : input.text.failure = none) :
    (ctx.parse path input).journal.findings
      = interleave (Parse.stmts input.text.eof input.tokens).findings input.text.scan.lexical := by
  have hopening : input.text.opening.findings = [] := by
    have htext : input.text = ⟨input.text.glyphs, none⟩ := by rw [← h]
    rw [htext]
    exact Text.findings_opening _
  rw [findings_parse_eq, hopening, List.nil_append, interleave_lexical]

/-- Reports come in source order.  What parsing an input that could be read appends to the
diagnostics stands in order of line and then of column, whoever found it; and with fewer items than
places can count in 32 bits, all of these places fit. -/
theorem reported_in_order (h : input.text.failure = none) :
    (ctx.parse path input).context.diagnostics.toList
        = ctx.diagnostics.toList ++ ctx.reported path input ∧
      ((ctx.reported path input).Pairwise fun d d' => d.loc.span.first ≤ d'.loc.span.first) ∧
      (input.text.glyphs.length < UInt32.size - 1 → ∀ d ∈ ctx.reported path input,
        d.loc.span.first.line < UInt32.size ∧ d.loc.span.first.col < UInt32.size) := by
  have horder := Text.inOrder_scan h
  have hshown : input.text.scan.lexical.shown.map View.span
      = Parse.places input.text.eof input.tokens := by
    rw [Journal.shown_lexical, input.span_shown]
  have hplaces := horder.shown
  rw [hshown] at hplaces
  rcases (Parse.stmts_visits input.text.eof input.tokens).in_order hplaces with ⟨hfindings, hviews⟩
  rw [← hshown] at hviews
  rw [diagnostics_parse, reported_eq, findings_parse_lexical ctx path h]
  refine ⟨rfl, List.pairwise_map.2 (interleave_in_order horder hfindings hviews), ?_⟩
  intro hlength d hd
  rcases List.mem_map.1 hd with ⟨f, hf, rfl⟩
  rcases exists_record_of_mem_interleave hviews hf with ⟨r, hr, hspan⟩
  rcases Text.exists_placeOf h hr hspan with ⟨i, hi⟩
  have hfits := placeOf_fits hlength i
  rwa [← hi] at hfits

/-- A character that belongs to no token and a comment that is not closed, among tokens that are
missing. -/
theorem reported_in_order_broken :
    let input := Input.ofString "let = (§ +\n; ) /* 1"
    input.text.failure = none ∧ ((empty 0).reported none input).length = 6 ∧
      ((empty 0).reported none input).Pairwise
        fun d d' => d.loc.span.first ≤ d'.loc.span.first := by
  intro input
  have hread : input.text.failure = none := by
    rw [Input.text_ofString]
  refine ⟨hread, ?_, ?_⟩
  · decide +kernel
  · exact (reported_in_order (empty 0) none hread).2.1

end Context

end LetCalc
