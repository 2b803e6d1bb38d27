import LetCalc.Proofs.Token.LongestMatch
import Mathlib.Data.List.Induction

/-!
# Where tokens stand

The items of a text are counted from zero, and the place of an item is read off the items in front
of it: the line feeds among them tell its line, and the items behind the last line feed its column.
The scanner, which carries a place along from glyph to glyph, gives every token the places of the
first and of the last item that it covers.  A failure to read, which cuts a text off, changes no
token and adds one report at the end.

Main results:

- Definition `placeOf`: the place of an item, and `placeOf_lt`: later items have later places.
- Theorems `Text.scan_shown` and `Text.findings_scan`: the records of a text that may be cut off.
- Theorem `Piece.alone_front`: the items of a token are characters of one line, and cut into pieces
  by themselves they are the same token.
- Theorem `Context.lex_spans_exact`: the spans of all tokens that are handed out.
-/

namespace LetCalc

/-! ## Places of items -/

/-- The place of the item with index `i`: one more than the line feeds in front of it, and one more
than the items behind the last of these. -/
def placeOf (glyphs : List Glyph) (i : Nat) : Pos :=
  ⟨1 + (glyphs.take i).count (.char '\n'),
    1 + ((glyphs.take i).reverse.takeWhile (· ≠ .char '\n')).length⟩

/-- Carrying a place along over some glyphs counts the line feeds, and the glyphs behind the last
one. -/
theorem Pos.afterAll_start (glyphs : List Glyph) :
    Pos.start.afterAll glyphs
      = ⟨1 + glyphs.count (.char '\n'),
        1 + (glyphs.reverse.takeWhile (· ≠ .char '\n')).length⟩ := by
  induction glyphs using List.reverseRecOn with
  | nil => rfl
  | append_singleton glyphs g ih =>
    rw [Pos.afterAll_append, ih, Pos.afterAll_cons, Pos.afterAll_nil]
    by_cases hg : g = .char '\n'
    · subst hg
      simp [Pos.after, Pos.newline, Nat.add_assoc]
    · have hafter : ∀ p : Pos, p.after g = p.right := by
        intro p
        cases g with
        | malformed fault => rfl
        | char c =>
          have hc : c ≠ '\n' := fun h => hg (congrArg Glyph.char h)
          exact if_neg hc
      rw [hafter]
      simp [hg, Pos.right, Nat.add_assoc]

theorem placeOf_eq_afterAll (glyphs : List Glyph) (i : Nat) :
    placeOf glyphs i = Pos.start.afterAll (glyphs.take i) :=
  (Pos.afterAll_start _).symm

/-- The place some items further on. -/
theorem placeOf_add {glyphs items rest : List Glyph} {i : Nat} (h : glyphs.drop i = items ++ rest) :
    placeOf glyphs (i + items.length) = (placeOf glyphs i).afterAll items := by
  rw [placeOf_eq_afterAll, placeOf_eq_afterAll, List.take_add, h, List.take_left,
    Pos.afterAll_append]

/-- Later items have later places. -/
theorem placeOf_lt {glyphs : List Glyph} {i j : Nat} (hij : i < j) (hj : j ≤ glyphs.length) :
    placeOf glyphs i < placeOf glyphs j := by
  have hlength : ((glyphs.drop i).take (j - i)).length = j - i := by
    rw [List.length_take, List.length_drop]
    omega
  have hplace := placeOf_add (List.take_append_drop (j - i) (glyphs.drop i)).symm
  rw [hlength, Nat.add_sub_cancel' (Nat.le_of_lt hij)] at hplace
  rw [hplace]
  apply Pos.lt_afterAll
  intro hnil
  rw [hnil, List.length_nil] at hlength
  omega

/-- Places fit into 32 bits as long as the items are fewer than that. -/
theorem placeOf_fits {glyphs : List Glyph} (h : glyphs.length < UInt32.size - 1) (i : Nat) :
    (placeOf glyphs i).line < UInt32.size ∧ (placeOf glyphs i).col < UInt32.size := by
  have htake : (glyphs.take i).length ≤ glyphs.length := List.length_take_le' i glyphs
  have hline : (glyphs.take i).count (.char '\n') ≤ (glyphs.take i).length := List.count_le_length
  have hcol : ((glyphs.take i).reverse.takeWhile (· ≠ .char '\n')).length
      ≤ (glyphs.take i).reverse.length := (List.takeWhile_sublist _).length_le
  rw [List.length_reverse] at hcol
  simp only [placeOf]
  omega

/-! ## Texts that are cut off -/

/-- The last record of a scan is the end of the file, behind the last glyph. -/
theorem scanFrom_last (failure : Option String) (p : Pos) (phase : Phase) (glyphs : List Glyph) :
    ∃ body, (scanFrom failure p phase #[] glyphs).toList
      = body ++ [.view (.eof (.single (p.afterAll glyphs)))] := by
  induction glyphs generalizing p phase with
  | nil => exact ⟨phase.complete, by simp [scanFrom]⟩
  | cons g rest ih =>
    rcases ih (p.after g) (phase.step p g).2 with ⟨body, hbody⟩
    refine ⟨(phase.step p g).1 ++ arrival failure (p.after g) rest ++ body, ?_⟩
    rw [scanFrom, scanFrom_acc, hbody]
    simp

/-- What is found where a failure cuts a text off. -/
def cutFindings (failure : Option String) (p : Pos) : List Finding :=
  (failure.map fun reason => ⟨.single p, .readFailure reason⟩).toList

/-- A failure adds one report, at the end, to what a scan finds. -/
theorem findings_scanFrom (failure : Option String) (p : Pos) (phase : Phase)
    (glyphs : List Glyph) :
    (Journal.findings (arrival failure p glyphs)
        ++ Journal.findings (scanFrom failure p phase #[] glyphs).toList).Perm
      (cutFindings failure (p.afterAll glyphs)
        ++ Journal.findings (scanFrom none p phase #[] glyphs).toList) := by
  induction glyphs generalizing p phase with
  | nil =>
    have harrival : Journal.findings (arrival failure p []) = cutFindings failure p := by
      cases failure <;> rfl
    rw [harrival]
    exact List.Perm.refl _
  | cons g rest ih =>
    have harrival : Journal.findings (arrival failure p (g :: rest)) = [] := by
      cases g <;> rfl
    have hnone : Journal.findings (arrival none (p.after g) rest) = [] := by
      rcases rest with - | ⟨c | fault, rest⟩ <;> rfl
    have hstep : ∀ failure, Journal.findings (scanFrom failure p phase #[] (g :: rest)).toList
        = Journal.findings (phase.step p g).1
          ++ (Journal.findings (arrival failure (p.after g) rest)
            ++ Journal.findings
              (scanFrom failure (p.after g) (phase.step p g).2 #[] rest).toList) := by
      intro failure
      rw [scanFrom, scanFrom_acc]
      simp
    rw [harrival, hstep, hstep none, hnone, List.nil_append, List.nil_append, Pos.afterAll_cons]
    refine ((ih _ _).append_left _).trans ?_
    rw [← List.append_assoc, ← List.append_assoc]
    exact List.perm_append_comm.append_right _

/-- Before the end of the file all that comes into view are tokens. -/
theorem Journal.Spelled.shown_eq {journal : Journal} (h : journal.Spelled) :
    journal.shown = journal.tokens.map .ofToken := by
  induction journal with
  | nil => rfl
  | cons record rest ih =>
    have hrest : Journal.Spelled rest := fun v hv => h v (List.mem_cons_of_mem _ hv)
    cases record with
    | view v =>
      rcases h v (List.mem_cons_self ..) with ⟨kind, hkind, -⟩
      have htoken : Record.token? (.view v) = some ⟨kind, v.span⟩ := by
        simp [Record.token?, Record.view?, View.token?, hkind]
      have hview : v = .ofToken ⟨kind, v.span⟩ := by
        rw [View.ofToken, ← hkind]
      rw [Journal.tokens, List.filterMap_cons_some htoken, List.map_cons, ← hview]
      exact congrArg (v :: ·) (ih hrest)
    | finding | fault | parsed | unbound | bound => exact ih hrest

namespace Text

/-- The views of a text are the tokens of its pieces, and last the end of the file. -/
theorem scan_shown (text : Text) :
    ∃ body : Journal, text.scan = body ++ [.view (.eof text.eof)] ∧
      body.shown = (Piece.journal .start (pieces text.glyphs)).tokens.map .ofToken := by
  rcases text.scan_spelled with ⟨body, span, hscan, hspelled⟩
  rcases scanFrom_last text.failure .start .gap text.glyphs with ⟨body', hlast⟩
  have hsame : body ++ [Record.view (.eof span)] = body' ++ [.view (.eof text.eof)] :=
    hscan.symm.trans hlast
  rcases List.append_inj' hsame rfl with ⟨rfl, heof⟩
  refine ⟨body, heof ▸ hscan, ?_⟩
  rw [hspelled.shown_eq, ← tokens_scan, hscan, Journal.tokens_append]
  exact congrArg (List.map _) (List.append_nil _).symm

/-- What comes into view are the tokens of the pieces, and last the end of the file. -/
theorem shown_scan (text : Text) :
    text.scan.shown = (Piece.journal .start (pieces text.glyphs)).tokens.map .ofToken
      ++ [.eof text.eof] := by
  rcases text.scan_shown with ⟨body, hscan, hshown⟩
  rw [hscan, Journal.shown_append, hshown]
  rfl

/-- What is found in a text is what is wrong with its pieces and, if it is cut off, the failure at
its end. -/
theorem findings_scan (text : Text) :
    (text.opening.findings ++ text.scan.findings).Perm
      (cutFindings text.failure (Pos.start.afterAll text.glyphs)
        ++ (Piece.journal .start (pieces text.glyphs)).findings) := by
  rcases Text.scan_pieces text.glyphs with ⟨body, hscan, hlexical⟩
  have hclean : Journal.findings (scanFrom none .start .gap #[] text.glyphs).toList
      = (Piece.journal .start (pieces text.glyphs)).findings := by
    refine (congrArg Journal.findings hscan).trans ?_
    rw [Journal.findings_append, ← Journal.findings_lexical body, hlexical]
    exact List.append_nil _
  rw [← hclean]
  exact findings_scanFrom text.failure .start .gap text.glyphs

end Text

/-! ## The items of a token -/

namespace Piece

theorem exists_front_of_mem {piece : Piece} {glyphs : List Glyph} (h : piece ∈ pieces glyphs) :
    ∃ g rest, piece = front g rest := by
  refine pieces_induction (P := fun _ ps => ∀ piece ∈ ps, ∃ g rest, piece = front g rest) (by simp)
    ?_ glyphs piece h
  intro g rest after _ ih piece hpiece
  rcases List.mem_cons.1 hpiece with rfl | hpiece
  · exact ⟨g, rest, rfl⟩
  · exact ih piece hpiece

/-- Glyphs of a sort that has characters only are characters. -/
theorem eq_map_chars {P : Glyph → Bool} (hP : ∀ fault, P (.malformed fault) = false)
    {glyphs : List Glyph} (h : ∀ g ∈ glyphs, P g = true) :
    glyphs = (Glyph.chars glyphs).map .char := by
  induction glyphs with
  | nil => rfl
  | cons g glyphs ih =>
    have hrest := ih fun g' hg' => h g' (List.mem_cons_of_mem _ hg')
    cases g with
    | malformed fault =>
      have hg := h _ (List.mem_cons_self ..)
      rw [hP] at hg
      cases hg
    | char c => exact congrArg (Glyph.char c :: ·) hrest

/-- The piece is a text on one line, and by itself this text is cut into this piece only. -/
def Alone (piece : Piece) : Prop :=
  (∃ text : String, piece.glyphs = text.toList.map .char ∧ '\n' ∉ text.toList) ∧
    pieces piece.glyphs = [piece]

/-- A piece that is at the front of its own glyphs is the only piece of them. -/
theorem pieces_eq_singleton {g : Glyph} {rest : List Glyph} {piece : Piece}
    (hglyphs : piece.glyphs = g :: rest) (hfront : front g rest = piece) :
    pieces piece.glyphs = [piece] := by
  rw [hglyphs, pieces, hfront, hglyphs]
  simp [pieces]

theorem alone_single {c : Char} {piece : Piece} (hc : c ≠ '\n') (hglyphs : piece.glyphs = [.char c])
    (hfront : front (.char c) [] = piece) : piece.Alone := by
  refine ⟨⟨.ofList [c], ?_, ?_⟩, pieces_eq_singleton hglyphs hfront⟩
  · rw [hglyphs, String.toList_ofList]
    rfl
  · rw [String.toList_ofList, List.mem_singleton]
    exact Ne.symm hc

/-- A longest run of glyphs of some sort is a text on one line if all of this sort are characters,
and no line feed is. -/
theorem alone_run {P : Glyph → Bool} (hP : ∀ fault, P (.malformed fault) = false)
    (hfeed : P (.char '\n') = false) {g : Glyph} (hg : P g = true) {rest : List Glyph}
    {piece : Piece} (hglyphs : piece.glyphs = g :: rest.takeWhile P)
    (hfront : front g (rest.takeWhile P) = piece) : piece.Alone := by
  have hall : ∀ g' ∈ piece.glyphs, P g' = true := by
    intro g' hg'
    rw [hglyphs] at hg'
    rcases List.mem_cons.1 hg' with rfl | hg'
    · exact hg
    · exact List.mem_takeWhile_imp hg'
  have hchars := eq_map_chars hP hall
  refine ⟨⟨.ofList (Glyph.chars piece.glyphs), ?_, ?_⟩, pieces_eq_singleton hglyphs hfront⟩
  · rwa [String.toList_ofList]
  · intro hmem
    rw [String.toList_ofList] at hmem
    have hnewline := hall (.char '\n') (hchars ▸ List.mem_map_of_mem hmem)
    rw [hfeed] at hnewline
    cases hnewline

/-- The items of a token are characters of one line, and cut into pieces by themselves they are the
same token. -/
theorem alone_front {g : Glyph} {rest : List Glyph} {kind : Kind String}
    (h : (front g rest).kind = some kind) : (front g rest).Alone := by
  cases g with
  | malformed fault => cases h
  | char c =>
    -- One case for each way to start a piece, as the pieces are told apart.
    by_cases hblank : isBlank c = true
    · simp [front, hblank] at h
    have hfeed : c ≠ '\n' := by
      rintro rfl
      exact hblank (by decide)
    by_cases hslash : c = '/'
    · subst hslash
      have hfront : front (.char '/') rest = slash rest := rfl
      rw [hfront] at h ⊢
      unfold slash at h ⊢
      split at h
      · cases h
      · split at h <;> cases h
      · exact alone_single hfeed rfl rfl
    by_cases hdigit : c.isDigit = true
    · have hfront : ∀ rest, front (.char c) rest
          = number (.char c :: rest.takeWhile Glyph.isDigit) := front_digit hdigit
      rw [hfront]
      refine alone_run (P := Glyph.isDigit) (g := .char c) (fun _ => rfl) rfl hdigit rfl ?_
      rw [hfront, List.takeWhile_idem]
    by_cases hword : startsWord c = true
    · have hfront : ∀ rest, front (.char c) rest
          = word (.char c :: rest.takeWhile Glyph.continuesWord) := by
        intro rest
        simp [front, hblank, hslash, hdigit, hword]
      rw [hfront]
      refine alone_run (P := Glyph.continuesWord) (g := .char c) (fun _ => rfl) rfl
        (continuesWord_of_startsWord hword) rfl ?_
      rw [hfront, List.takeWhile_idem]
    cases hmark : (Kind.ofChar? c : Option (Kind String)) with
    | none => simp [front, hblank, hslash, hdigit, hword, hmark] at h
    | some mark =>
      have hfront : ∀ rest, front (.char c) rest = ⟨[.char c], some mark, none⟩ := by
        intro rest
        simp [front, hblank, hslash, hdigit, hword, hmark]
      rw [hfront]
      exact alone_single hfeed rfl (hfront [])

/-- A glyph that is reported as no part of a token is a piece of its own. -/
theorem front_skipped {g : Glyph} {rest : List Glyph} {problem : Problem}
    (h : (front g rest).problem = some problem)
    (hproblem : problem = .malformed ∨ ∃ c, problem = .strayChar c) :
    front g rest = ⟨[g], none, some problem⟩ ∧
      ((problem = .malformed ∧ ∃ fault, g = .malformed fault) ∨
        ∃ c, problem = .strayChar c ∧ g = .char c) := by
  cases g with
  | malformed fault =>
    cases h
    exact ⟨rfl, Or.inl ⟨rfl, fault, rfl⟩⟩
  | char c =>
    unfold front at h ⊢
    simp only at h ⊢
    split at h
    · cases h
    split at h
    · unfold slash at h
      repeat' split at h
      all_goals cases h
      rcases hproblem with hproblem | ⟨c, hproblem⟩ <;> cases hproblem
    split at h
    · unfold number at h
      simp only at h
      split at h
      · cases h
      · cases h
        rcases hproblem with hproblem | ⟨c, hproblem⟩ <;> cases hproblem
    split at h
    · cases h
    split at h
    · cases h
    · next hblank hslash hdigit hword _ _ =>
      cases h
      simp [hblank, hslash, hdigit, hword]

end Piece

/-! ## Tokens by the items they cover -/

/-- A token of a text, with the indices of the first and of the last item that it covers. -/
structure Covered where
  kind : Kind String
  first : Nat
  last : Nat

/-- The token at its place in the text. -/
def Covered.token (glyphs : List Glyph) (t : Covered) : Token String :=
  ⟨t.kind, placeOf glyphs t.first, placeOf glyphs t.last⟩

/-- The text of some items is a text of which the scanner hands out one token, of the given kind. -/
def LexesAlone (items : List Glyph) (kind : Kind String) : Prop :=
  ∃ text : String, items = text.toList.map .char ∧ ∀ (ctx : Context) (path : Option String),
    let opened := ctx.openLexer path (.ofString text)
    (opened.context.lexMany opened.value 2).1.map (View.kind ∘ View.map Symbol.name)
      = [some kind, none]

namespace Piece

/-- The tokens among pieces that start with item `i`. -/
def covered (i : Nat) : List Piece → List Covered
  | [] => []
  | piece :: rest =>
    (piece.kind.map fun kind => ⟨kind, i, i + piece.glyphs.length - 1⟩).toList
      ++ covered (i + piece.glyphs.length) rest

/-- A token covers the items of its piece. -/
theorem exists_of_mem_covered {i : Nat} {ps : List Piece} {t : Covered} (h : t ∈ covered i ps) :
    ∃ before piece after, ps = before ++ piece :: after ∧ piece.kind = some t.kind ∧
      t.first = i + (before.flatMap glyphs).length ∧
      t.last = t.first + piece.glyphs.length - 1 := by
  induction ps generalizing i with
  | nil => cases h
  | cons piece ps ih =>
    rw [covered, List.mem_append] at h
    rcases h with h | h
    · rcases Option.map_eq_some_iff.1 (Option.mem_toList.1 h) with ⟨kind, hkind, rfl⟩
      exact ⟨[], piece, ps, rfl, hkind, rfl, rfl⟩
    · rcases ih h with ⟨before, piece', after, rfl, hkind, hfirst, hlast⟩
      refine ⟨piece :: before, piece', after, rfl, hkind, ?_, hlast⟩
      rw [hfirst, List.flatMap_cons, List.length_append, Nat.add_assoc]

/-- What is found in pieces is the problem of one of them, at its place. -/
theorem exists_of_mem_findings {p : Pos} {ps : List Piece} {f : Finding}
    (h : f ∈ (journal p ps).findings) :
    ∃ before piece after, ps = before ++ piece :: after ∧ piece.problem = some f.problem ∧
      f.span = piece.place (p.afterAll (before.flatMap glyphs)) f.problem := by
  induction ps generalizing p with
  | nil => cases h
  | cons piece ps ih =>
    rw [journal, Journal.findings_append, List.mem_append] at h
    rcases h with h | h
    · have hfindings : (piece.records p).findings
          = (piece.problem.map fun problem => ⟨piece.place p problem, problem⟩).toList := by
        rw [records]
        cases piece.problem <;> cases piece.kind <;> rfl
      rw [hfindings, Option.mem_toList, Option.map_eq_some_iff] at h
      rcases h with ⟨problem, hproblem, rfl⟩
      exact ⟨[], piece, ps, rfl, hproblem, rfl⟩
    · rcases ih h with ⟨before, piece', after, rfl, hproblem, hspan⟩
      refine ⟨piece :: before, piece', after, rfl, hproblem, ?_⟩
      rwa [List.flatMap_cons, Pos.afterAll_append]

/-- Tokens cover items one behind the other. -/
theorem covered_lt (i : Nat) {ps : List Piece} (h : ∀ piece ∈ ps, piece.glyphs ≠ []) :
    (∀ t ∈ covered i ps, i ≤ t.first) ∧
      (covered i ps).Pairwise fun t t' => t.last < t'.first := by
  induction ps generalizing i with
  | nil => exact ⟨by simp [covered], List.Pairwise.nil⟩
  | cons piece ps ih =>
    have hpos : 0 < piece.glyphs.length := List.length_pos_iff.2 (h piece (List.mem_cons_self ..))
    have hps : ∀ piece' ∈ ps, piece'.glyphs ≠ [] :=
      fun piece' hpiece' => h piece' (List.mem_cons_of_mem _ hpiece')
    rcases ih (i + piece.glyphs.length) hps with ⟨hfirst, hpairwise⟩
    rw [covered]
    constructor
    · intro t ht
      rcases List.mem_append.1 ht with ht | ht
      · rcases Option.map_eq_some_iff.1 (Option.mem_toList.1 ht) with ⟨kind, -, rfl⟩
        exact Nat.le_refl i
      · exact Nat.le_of_add_right_le (hfirst t ht)
    · refine List.pairwise_append.2 ⟨?_, hpairwise, ?_⟩
      · cases piece.kind <;> simp
      · intro t ht t' ht'
        have hbehind := hfirst t' ht'
        rcases Option.map_eq_some_iff.1 (Option.mem_toList.1 ht) with ⟨kind, -, rfl⟩
        simp only
        omega

/-- The span of some items goes from the place of the first to the place of the last. -/
theorem over_placeOf {glyphs items rest : List Glyph} {i : Nat} (hne : items ≠ [])
    (h : glyphs.drop i = items ++ rest) :
    Span.over (placeOf glyphs i) items
      = ⟨placeOf glyphs i, placeOf glyphs (i + items.length - 1)⟩ := by
  have hpos := List.length_pos_iff.2 hne
  rw [← List.dropLast_concat_getLast hne, List.append_assoc] at h
  have hplace := placeOf_add h
  rw [List.length_dropLast, ← Nat.add_sub_assoc hpos] at hplace
  rw [Span.over, hplace]

/-- The tokens of pieces stand at the places of the items that they cover. -/
theorem tokens_journal {glyphs : List Glyph} {i : Nat} {ps : List Piece}
    (hne : ∀ piece ∈ ps, piece.glyphs ≠ []) (h : glyphs.drop i = ps.flatMap Piece.glyphs) :
    (journal (placeOf glyphs i) ps).tokens = (covered i ps).map (Covered.token glyphs) := by
  induction ps generalizing i with
  | nil => rfl
  | cons piece ps ih =>
    rw [List.flatMap_cons] at h
    have hdrop : glyphs.drop (i + piece.glyphs.length) = ps.flatMap Piece.glyphs := by
      rw [← List.drop_drop, h, List.drop_left]
    have hrest := ih (fun piece' hpiece' => hne piece' (List.mem_cons_of_mem _ hpiece')) hdrop
    have hover := over_placeOf (hne piece (List.mem_cons_self ..)) h
    rw [journal, Journal.tokens_append, covered, List.map_append, ← placeOf_add h, hrest, records,
      hover]
    cases piece.problem <;> cases piece.kind <;> rfl

/-- The piece is one of those of the text, and its first item has index `i`. -/
def At (text : List Glyph) (i : Nat) (piece : Piece) : Prop :=
  ∃ before after, pieces text = before ++ piece :: after ∧ i = (before.flatMap glyphs).length

theorem At.mem {text : List Glyph} {i : Nat} {piece : Piece} (h : piece.At text i) :
    piece ∈ pieces text := by
  rcases h with ⟨before, after, hpieces, -⟩
  simp [hpieces]

theorem At.drop_eq {text : List Glyph} {i : Nat} {piece : Piece} (h : piece.At text i) :
    ∃ rest, text.drop i = piece.glyphs ++ rest := by
  rcases h with ⟨before, after, hpieces, rfl⟩
  exact ⟨after.flatMap glyphs, (pieces_of_append hpieces).1.trans List.flatMap_cons⟩

end Piece

/-- Items without a line feed stand on one line. -/
theorem line_placeOf_add {glyphs items rest : List Glyph} {i m : Nat}
    (h : glyphs.drop i = items ++ rest) (hfeed : .char '\n' ∉ items) (hm : m ≤ items.length) :
    (placeOf glyphs (i + m)).line = (placeOf glyphs i).line := by
  have hnone : (items.take m).count (.char '\n') = 0 :=
    List.count_eq_zero.2 fun hmem => hfeed (List.mem_of_mem_take hmem)
  simp only [placeOf]
  rw [List.take_add, h, List.take_append_of_le_length hm, List.count_append, hnone, Nat.add_zero]

/-! ## What is handed out -/

namespace Context

/-- The calls up to the end of the file hand out the tokens of the pieces of the text. -/
theorem lexMany_text (ctx : Context) (path : Option String) (input : Input) {n : Nat}
    (hn : (Piece.journal .start (pieces input.text.glyphs)).tokens.length = n) :
    let opened := ctx.openLexer path input
    let run := opened.context.lexMany opened.value (n + 1)
    run.1.map (View.map Symbol.name)
        = (Piece.journal .start (pieces input.text.glyphs)).tokens.map .ofToken
          ++ [.eof input.text.eof] ∧
      run.2.diagnostics.toList
        = ctx.diagnostics.toList
          ++ (input.text.opening.findings ++ input.text.scan.findings).map
            (Finding.diagnostic path) := by
  intro opened run
  rcases input.text.scan_shown with ⟨body, hscan, hshown⟩
  rcases lexMany_pending opened.context path input.text.eof [] rfl body (.eof input.text.eof) with
    ⟨views, ctx', hrun, hviews, hdiagnostics⟩
  rw [List.nil_append, ← hscan, hshown, List.length_map, hn] at hrun
  have hrun' : run = (views, ctx') := hrun
  have hopened : opened.context.diagnostics.toList
      = ctx.diagnostics.toList ++ input.text.opening.findings.map (Finding.diagnostic path) :=
    diagnostics_record ctx path _
  have hfindings : input.text.scan.findings = Journal.findings body := by
    rw [hscan, Journal.findings_append]
    exact List.append_nil _
  rw [hrun', ← hshown]
  refine ⟨hviews, ?_⟩
  rw [hdiagnostics, hopened, hfindings, List.nil_append, List.map_append, List.append_assoc]

end Context

namespace Piece

/-- A token is what the text of its items is by itself. -/
theorem lexesAlone_front {g : Glyph} {rest : List Glyph} {kind : Kind String}
    (h : (front g rest).kind = some kind) : LexesAlone (front g rest).glyphs kind := by
  rcases alone_front h with ⟨⟨text, htext, -⟩, halone⟩
  refine ⟨text, htext, ?_⟩
  intro ctx path opened
  have hpieces : pieces (Input.ofString text).text.glyphs = [front g rest] := by
    rw [Input.text_ofString, ← htext, halone]
  have htokens : (journal .start (pieces (Input.ofString text).text.glyphs)).tokens
      = [⟨kind, .over .start (front g rest).glyphs⟩] := by
    rw [hpieces]
    simp only [journal, records, h, List.append_nil]
    cases (front g rest).problem <;> rfl
  have hviews := (ctx.lexMany_text path (.ofString text) (congrArg List.length htokens)).1
  rw [htokens] at hviews
  rw [← List.map_map]
  exact congrArg (List.map View.kind) hviews

section Covered

variable {text : List Glyph} {t : Covered} (h : t ∈ covered 0 (pieces text))
include h

theorem exists_front_of_mem_covered :
    ∃ g tail rest, (front g tail).kind = some t.kind ∧
      text.drop t.first = (front g tail).glyphs ++ rest ∧
      t.last + 1 = t.first + (front g tail).glyphs.length := by
  rcases exists_of_mem_covered h with ⟨before, piece, after, hpieces, hkind, hfirst, hlast⟩
  have hat : piece.At text t.first := ⟨before, after, hpieces, by rw [hfirst, Nat.zero_add]⟩
  have hpos := List.length_pos_iff.2 (glyphs_ne_nil hat.mem)
  rcases hat.drop_eq with ⟨rest, hdrop⟩
  rcases exists_front_of_mem hat.mem with ⟨g, tail, rfl⟩
  exact ⟨g, tail, rest, hkind, hdrop, by omega⟩

theorem bounds_of_mem_covered : t.first ≤ t.last ∧ t.last < text.length := by
  rcases exists_front_of_mem_covered h with ⟨g, tail, rest, -, hdrop, hlast⟩
  rcases taken_front .start tail g with ⟨more, -, -, -, -, hglyphs, -⟩
  have hlength := congrArg List.length hdrop
  simp only [hglyphs, List.length_drop, List.length_append, List.length_cons] at hlength hlast
  omega

/-- The items of a token stand on one line. -/
theorem line_of_mem_covered {i : Nat} (hfirst : t.first ≤ i) (hlast : i ≤ t.last) :
    (placeOf text i).line = (placeOf text t.first).line := by
  rcases exists_front_of_mem_covered h with ⟨g, tail, rest, hkind, hdrop, hlength⟩
  rcases alone_front hkind with ⟨⟨word, hword, hfeed⟩, -⟩
  have hline : .char '\n' ∉ (front g tail).glyphs := by
    rw [hword]
    simpa using hfeed
  rcases Nat.exists_eq_add_of_le hfirst with ⟨m, rfl⟩
  exact line_placeOf_add hdrop hline (by omega)

/-- The items of a token are this token by themselves. -/
theorem lexesAlone_of_mem_covered :
    LexesAlone ((text.drop t.first).take (t.last + 1 - t.first)) t.kind := by
  rcases exists_front_of_mem_covered h with ⟨g, tail, rest, hkind, hdrop, hlast⟩
  rw [hlast, Nat.add_sub_cancel_left, hdrop, List.take_left]
  exact lexesAlone_front hkind

end Covered

/-- What is reported as no part of a token is reported where it stands. -/
theorem exists_at_of_skipped {text : List Glyph} {f : Finding}
    (h : f ∈ (journal .start (pieces text)).findings)
    (hproblem : f.problem = .malformed ∨ ∃ c, f.problem = .strayChar c) :
    ∃ i g, f.span = .single (placeOf text i) ∧ text[i]? = some g ∧
      At text i ⟨[g], none, some f.problem⟩ ∧
      ((f.problem = .malformed ∧ ∃ fault, g = .malformed fault) ∨
        ∃ c, f.problem = .strayChar c ∧ g = .char c) := by
  rcases exists_of_mem_findings h with ⟨before, piece, after, hpieces, hfound, hspan⟩
  have hat : piece.At text (before.flatMap glyphs).length := ⟨before, after, hpieces, rfl⟩
  rcases exists_front_of_mem hat.mem with ⟨g, tail, rfl⟩
  rcases front_skipped hfound hproblem with ⟨hfront, hg⟩
  rcases hat.drop_eq with ⟨rest, hdrop⟩
  rw [hfront] at hat hdrop hspan
  have htake : text.take (before.flatMap glyphs).length = before.flatMap glyphs := by
    have hsplit := flatMap_pieces text
    rw [hpieces, List.flatMap_append] at hsplit
    rw [← hsplit, List.take_left]
  refine ⟨_, g, ?_, ?_, hat, hg⟩
  · have hopen : f.problem ≠ .openComment := by
      rcases hproblem with hproblem | ⟨c, hproblem⟩ <;> simp [hproblem]
    rw [hspan, place, if_neg hopen, placeOf_eq_afterAll, htake]
    rfl
  · rw [← List.head?_drop, hdrop]
    rfl

end Piece

/-- Spans are exact.  The items of an input are the answers up to its end or failure, and their
places fit into 32 bits if the items are fewer.  The calls up to the first end of the file hand out
the tokens, each from the place of the first to the place of the last item that it covers, and the
end of the file behind all items.  A token covers items of one line, which by themselves are lexed
as this token only, and ends before the next one begins.  An item that is reported as no part of a
token, and is a piece of its own, is reported where it stands. -/
theorem Context.lex_spans_exact (ctx : Context) (path : Option String) (input : Input) :
    let glyphs := input.text.glyphs
    let covered := Piece.covered 0 (pieces glyphs)
    let opened := ctx.openLexer path input
    let run := opened.context.lexMany opened.value (covered.length + 1)
    (∃ more, input.answers 1 = glyphs.map (fun g => some (.glyph g)) ++ more ∧
      ∀ g, more.head? ≠ some (some (.glyph g))) ∧
    (glyphs.length < UInt32.size - 1 →
      ∀ i, (placeOf glyphs i).line < UInt32.size ∧ (placeOf glyphs i).col < UInt32.size) ∧
    run.1.map (View.map Symbol.name)
      = covered.map (fun t => .ofToken (t.token glyphs))
        ++ [.eof (.single (placeOf glyphs glyphs.length))] ∧
    (∀ t ∈ covered, (t.first ≤ t.last ∧ t.last < glyphs.length) ∧
      (∀ i, t.first ≤ i → i ≤ t.last →
        (placeOf glyphs i).line = (placeOf glyphs t.first).line) ∧
      LexesAlone ((glyphs.drop t.first).take (t.last + 1 - t.first)) t.kind) ∧
    (covered.Pairwise fun t t' => placeOf glyphs t.last < placeOf glyphs t'.first) ∧
    ∀ d ∈ run.2.diagnostics.toList.drop ctx.diagnostics.size,
      (d.problem = .malformed ∨ ∃ c, d.problem = .strayChar c) →
      ∃ i g, d.loc = ⟨path, .single (placeOf glyphs i)⟩ ∧ glyphs[i]? = some g ∧
        Piece.At glyphs i ⟨[g], none, some d.problem⟩ ∧
        ((d.problem = .malformed ∧ ∃ fault, g = .malformed fault) ∨
          ∃ c, d.problem = .strayChar c ∧ g = .char c) := by
  intro glyphs covered opened run
  have hne : ∀ piece ∈ pieces glyphs, piece.glyphs ≠ [] := fun _ => Piece.glyphs_ne_nil
  have htokens : (Piece.journal .start (pieces glyphs)).tokens
      = covered.map (Covered.token glyphs) :=
    Piece.tokens_journal (i := 0) hne (flatMap_pieces glyphs).symm
  have hlength : (Piece.journal .start (pieces glyphs)).tokens.length = covered.length := by
    rw [htokens, List.length_map]
  rcases ctx.lexMany_text path input hlength with ⟨hviews, hdiagnostics⟩
  refine ⟨input.answers_text, placeOf_fits, ?_, ?_, ?_, ?_⟩
  · have heof : input.text.eof = .single (placeOf glyphs glyphs.length) := by
      rw [placeOf_eq_afterAll, List.take_length]
      rfl
    rw [hviews, htokens, List.map_map, heof]
    rfl
  · intro t ht
    exact ⟨Piece.bounds_of_mem_covered ht, fun _ => Piece.line_of_mem_covered ht,
      Piece.lexesAlone_of_mem_covered ht⟩
  · refine (Piece.covered_lt 0 hne).2.imp_of_mem ?_
    intro t t' _ ht' hlt
    have hbounds := Piece.bounds_of_mem_covered ht'
    exact placeOf_lt hlt (Nat.le_of_lt (Nat.lt_of_le_of_lt hbounds.1 hbounds.2))
  · intro d hd hproblem
    have hnew : run.2.diagnostics.toList = _ := hdiagnostics
    rw [hnew, ← Array.length_toList, List.drop_left] at hd
    rcases List.mem_map.1 hd with ⟨f, hf, rfl⟩
    rw [input.text.findings_scan.mem_iff, List.mem_append] at hf
    rcases hf with hf | hf
    · rcases Option.map_eq_some_iff.1 (Option.mem_toList.1 hf) with ⟨reason, -, rfl⟩
      rcases hproblem with hproblem | ⟨c, hproblem⟩ <;> cases hproblem
    · rcases Piece.exists_at_of_skipped hf hproblem with ⟨i, g, hspan, hrest⟩
      exact ⟨i, g, congrArg (Loc.mk path) hspan, hrest⟩

end LetCalc
