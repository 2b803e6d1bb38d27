import LetCalc.Proofs.Token.Spelling
import Mathlib.Data.List.TakeWhile

/-!
# Texts in pieces

A text can be cut into pieces without a scanner: what stands at the front decides how far the piece
goes, and the rest is cut in the same way.  A number and a word go as far as they can, a comment
goes to its end, and every other glyph is a piece of its own.  Each glyph belongs to one piece.  The
scanner, which sees one glyph at a time and learns only from the next one that a token is complete,
finds exactly the tokens and the problems of these pieces.

Main results:

- Definition `pieces`: the pieces of a text.
- Theorem `Piece.taken_front`: the scanner takes the first piece of every text.
- Theorem `scanned_eq_journal`: the scanner finds the tokens and the problems of the pieces.
- Theorem `Text.tokens_scan_lt`: the tokens of a text stand one behind the other.
-/

namespace LetCalc

/-! ## Pieces -/

/-- Glyphs that belong together, the token that they are, and what is wrong with them. -/
structure Piece where
  glyphs : List Glyph
  kind : Option (Kind String)
  problem : Option Problem
deriving DecidableEq, Repr

/-- The characters among some glyphs. -/
def Glyph.chars (glyphs : List Glyph) : List Char :=
  glyphs.filterMap fun
    | .char c => some c
    | .malformed _ => none

theorem Glyph.chars_concat (glyphs : List Glyph) (c : Char) :
    chars (glyphs ++ [.char c]) = chars glyphs ++ [c] :=
  List.filterMap_append

/-- Whether the glyph is a digit. -/
def Glyph.isDigit : Glyph → Bool
  | .char c => c.isDigit
  | .malformed _ => false

/-- Whether a word can go on with the glyph. -/
def Glyph.continuesWord : Glyph → Bool
  | .char c => LetCalc.continuesWord c
  | .malformed _ => false

/-- The glyphs through the first star that a slash follows, the slash included. -/
def throughClose : List Glyph → Option (List Glyph)
  | [] => none
  | g :: rest =>
    if g = .char '*' ∧ rest.head? = some (.char '/') then some [g, .char '/']
    else (throughClose rest).map (g :: ·)

namespace Piece

/-- The piece that starts with a slash in front of `rest`: a comment up to the end of the line, a
comment that has to be closed, or the token. -/
def slash (rest : List Glyph) : Piece :=
  match rest with
  | .char '/' :: _ => ⟨.char '/' :: rest.takeWhile (· ≠ .char '\n'), none, none⟩
  | .char '*' :: body =>
    match throughClose body with
    | some closed => ⟨.char '/' :: .char '*' :: closed, none, none⟩
    | none => ⟨.char '/' :: rest, none, some .openComment⟩
  | _ => ⟨[.char '/'], some .slash, none⟩

/-- The number whose digits are the glyphs, modulo the size of words. -/
def number (glyphs : List Glyph) : Piece :=
  let n := Numeral.decimal (Glyph.chars glyphs)
  ⟨glyphs, some (.int (.ofNat n)),
    if n < UInt64.size then none else some (.overflow (.ofList (Glyph.chars glyphs)))⟩

/-- The keyword or the name that the glyphs spell. -/
def word (glyphs : List Glyph) : Piece :=
  ⟨glyphs, some (.ofWord (.ofList (Glyph.chars glyphs))), none⟩

/-- The piece at the front of a text that starts with `g`. -/
def front (g : Glyph) (rest : List Glyph) : Piece :=
  match g with
  | .malformed _ => ⟨[g], none, some .malformed⟩
  | .char c =>
    if isBlank c then ⟨[g], none, none⟩
    else if c = '/' then slash rest
    else if c.isDigit then number (g :: rest.takeWhile Glyph.isDigit)
    else if startsWord c then word (g :: rest.takeWhile Glyph.continuesWord)
    else
      match Kind.ofChar? c with
      | some kind => ⟨[g], some kind, none⟩
      | none => ⟨[g], none, some (.strayChar c)⟩

end Piece

/-- The pieces of a text, from the front to the end. -/
def pieces : List Glyph → List Piece
  | [] => []
  | g :: rest =>
    Piece.front g rest :: pieces (rest.drop ((Piece.front g rest).glyphs.length - 1))
termination_by glyphs => glyphs.length
decreasing_by
  rw [List.length_drop, List.length_cons]
  omega

/-- A closed comment is the front of what it was found in. -/
theorem throughClose_append {body closed : List Glyph} (h : throughClose body = some closed) :
    ∃ after, closed ++ after = body := by
  induction body generalizing closed with
  | nil => cases h
  | cons g rest ih =>
    rw [throughClose] at h
    split at h
    · next hclose =>
      cases h
      rcases List.head?_eq_some_iff.1 hclose.2 with ⟨after, rfl⟩
      exact ⟨after, rfl⟩
    · rcases Option.map_eq_some_iff.1 h with ⟨closed', hclosed', rfl⟩
      rcases ih hclosed' with ⟨after, rfl⟩
      exact ⟨after, rfl⟩

/-! ## What the pieces record -/

/-- The place after some glyphs. -/
def Pos.afterAll (p : Pos) (glyphs : List Glyph) : Pos := glyphs.foldl Pos.after p

@[simp]
theorem Pos.afterAll_nil (p : Pos) : p.afterAll [] = p := rfl

@[simp]
theorem Pos.afterAll_cons (p : Pos) (g : Glyph) (glyphs : List Glyph) :
    p.afterAll (g :: glyphs) = (p.after g).afterAll glyphs := rfl

@[simp]
theorem Pos.afterAll_append (p : Pos) (xs ys : List Glyph) :
    p.afterAll (xs ++ ys) = (p.afterAll xs).afterAll ys := List.foldl_append

/-- The span of some glyphs, the first of which stands at `p`. -/
def Span.over (p : Pos) (glyphs : List Glyph) : Span := ⟨p, p.afterAll glyphs.dropLast⟩

namespace Piece

/-- Where a problem of a piece is reported: where the piece starts, if it is a comment that is not
closed, and all over the piece otherwise. -/
def place (p : Pos) (piece : Piece) (problem : Problem) : Span :=
  if problem = .openComment then .single p else .over p piece.glyphs

/-- What is recorded about a piece that starts at `p`: first what is wrong with it. -/
def records (p : Pos) (piece : Piece) : Journal :=
  (piece.problem.map fun problem => .finding ⟨piece.place p problem, problem⟩).toList ++
    (piece.kind.map fun kind => .view (.ofToken ⟨kind, .over p piece.glyphs⟩)).toList

/-- What is recorded about the pieces of a text from `p` on. -/
def journal (p : Pos) : List Piece → Journal
  | [] => []
  | piece :: rest => piece.records p ++ journal (p.afterAll piece.glyphs) rest

end Piece

/-! ## Scanning piece by piece -/

namespace Journal

/-- The records of tokens and problems, without those of byte sequences that came into view. -/
def lexical (journal : Journal) : Journal :=
  journal.filter fun record => record.view?.isSome || record.finding?.isSome

@[simp]
theorem lexical_append (j k : Journal) : lexical (j ++ k) = lexical j ++ lexical k :=
  List.filter_append ..

/-- What is taken from tokens and problems only is taken from the lexical records. -/
theorem filterMap_lexical {α : Type} {f : Record → Option α}
    (h : ∀ record, record.view? = none → record.finding? = none → f record = none) (j : Journal) :
    (lexical j).filterMap f = j.filterMap f := by
  rw [lexical, List.filterMap_filter]
  congr 1
  funext record
  cases hview : record.view? <;> cases hfinding : record.finding? <;> simp_all

@[simp]
theorem tokens_lexical (j : Journal) : tokens (lexical j) = tokens j := by
  apply filterMap_lexical
  intro record hview _
  rw [Record.token?, hview, Option.bind_none]

@[simp]
theorem findings_lexical (j : Journal) : findings (lexical j) = findings j :=
  filterMap_lexical (fun _ _ hfinding => hfinding) j

end Journal

/-- The tokens and problems that scanning on from a phase finds. -/
def scanned (p : Pos) (phase : Phase) (glyphs : List Glyph) : Journal :=
  Journal.lexical (scanFrom none p phase #[] glyphs).toList

namespace Phase

theorem lexical_complete (phase : Phase) : Journal.lexical phase.complete = phase.complete := by
  cases phase with
  | number run numeral =>
    rw [complete]
    split <;> rfl
  | gap | mark | slash | word | lineComment | blockComment => rfl

theorem lexical_start (p : Pos) (g : Glyph) : Journal.lexical (start p g).1 = (start p g).1 := by
  unfold start
  repeat' split
  all_goals rfl

/-- The phase with all of the glyphs in it, if all belong to it. -/
def extendAll (p : Pos) (phase : Phase) : List Glyph → Option Phase
  | [] => some phase
  | g :: rest => (phase.extend? p g).bind fun phase' => extendAll (p.after g) phase' rest

end Phase

theorem lexical_arrival (p : Pos) (glyphs : List Glyph) :
    Journal.lexical (arrival none p glyphs) = [] := by
  rcases glyphs with - | ⟨c | fault, rest⟩ <;> rfl

theorem scanned_cons (p : Pos) (phase : Phase) (g : Glyph) (rest : List Glyph) :
    scanned p phase (g :: rest)
      = Journal.lexical (phase.step p g).1 ++ scanned (p.after g) (phase.step p g).2 rest := by
  rw [scanned, scanFrom, scanFrom_acc]
  simp [scanned, lexical_arrival]

theorem scanned_nil (p : Pos) (phase : Phase) :
    scanned p phase [] = phase.complete ++ [.view (.eof (.single p))] := by
  have hview : Journal.lexical [.view (.eof (.single p))] = [.view (.eof (.single p))] := rfl
  simp [scanned, scanFrom, phase.lexical_complete, hview]

/-- A phase to which the next glyph does not belong is completed. -/
theorem scanned_complete (p : Pos) {phase : Phase} {glyphs : List Glyph}
    (h : ∀ g ∈ glyphs.head?, phase.extend? p g = none) :
    scanned p phase glyphs = phase.complete ++ scanned p .gap glyphs := by
  rw [scanned, scanFrom_complete none p h, Journal.lexical_append, phase.lexical_complete]
  rfl

/-- Between tokens a glyph starts a phase. -/
theorem scanned_start (p : Pos) (g : Glyph) (rest : List Glyph) :
    scanned p .gap (g :: rest)
      = (Phase.start p g).1 ++ scanned (p.after g) (Phase.start p g).2 rest := by
  have hstep : Phase.step p g .gap = Phase.start p g := by
    simp [Phase.step, Phase.extend?, Phase.complete]
  rw [scanned_cons, hstep, Phase.lexical_start]

/-- Glyphs that belong to a phase are taken without a record. -/
theorem scanned_extendAll {p : Pos} {phase phase' : Phase} {glyphs : List Glyph}
    (h : phase.extendAll p glyphs = some phase') (rest : List Glyph) :
    scanned p phase (glyphs ++ rest) = scanned (p.afterAll glyphs) phase' rest := by
  induction glyphs generalizing p phase with
  | nil =>
    cases h
    rfl
  | cons g glyphs ih =>
    rcases Option.bind_eq_some_iff.1 h with ⟨mid, hextend, hmore⟩
    have hstep : phase.step p g = ([], mid) := by simp [Phase.step, hextend]
    rw [List.cons_append, scanned_cons, hstep]
    exact ih hmore

/-- The run that some glyphs make, the first of which stands at `p`. -/
def Run.over (p : Pos) (glyphs : List Glyph) : Run :=
  ⟨.over p glyphs, .ofList (Glyph.chars glyphs)⟩

theorem Run.single_eq_over (p : Pos) (c : Char) : Run.single p c = Run.over p [.char c] := by
  simp only [Run.single, Run.over, Span.over, Span.single, Char.toString]
  rfl

theorem Run.push_over (p : Pos) (glyphs : List Glyph) (c : Char) :
    (Run.over p glyphs).push (p.afterAll glyphs) c = Run.over p (glyphs ++ [.char c]) := by
  simp [Run.over, Run.push, Span.over, Glyph.chars]

namespace Phase

/-! ### Glyphs that belong to a phase -/

/-- Where each glyph of some sort belongs to a phase, so do many. -/
theorem extendAll_run {p : Pos} {P : Glyph → Bool} (phase : List Glyph → Phase)
    (hstep : ∀ glyphs g, P g = true →
      extend? (p.afterAll glyphs) g (phase glyphs) = some (phase (glyphs ++ [g])))
    (glyphs : List Glyph) {more : List Glyph} (h : ∀ g ∈ more, P g = true) :
    extendAll (p.afterAll glyphs) (phase glyphs) more = some (phase (glyphs ++ more)) := by
  induction more generalizing glyphs with
  | nil => simp [extendAll]
  | cons g more ih =>
    have hmore := ih (glyphs ++ [g]) fun g' hg' => h g' (List.mem_cons_of_mem _ hg')
    rw [Pos.afterAll_append] at hmore
    rw [extendAll, hstep glyphs g (h g (List.mem_cons_self ..)), Option.bind_some]
    simpa using hmore

/-- A block comment goes through the first star that a slash follows; without one it goes on to the
end.  A star in front of the glyphs must not be followed by a slash. -/
theorem extendAll_blockComment (p pos : Pos) (star : Bool) (body : List Glyph)
    (hstar : star = true → body.head? ≠ some (.char '/')) :
    (∀ closed, throughClose body = some closed →
        extendAll p (blockComment pos star) closed = some gap) ∧
      (throughClose body = none → ∃ star',
        extendAll p (blockComment pos star) body = some (blockComment pos star')) := by
  induction body generalizing p star with
  | nil =>
    constructor
    · intro closed hclosed
      cases hclosed
    · intro _
      exact ⟨star, rfl⟩
  | cons g rest ih =>
    have hstep : extend? p g (blockComment pos star) = some (blockComment pos (g = .char '*')) := by
      have hopen : ¬ (star && g = .char '/') = true := by
        simp only [Bool.and_eq_true, decide_eq_true_eq, not_and]
        rintro hs rfl
        exact hstar hs rfl
      rw [extend?, if_neg hopen]
    rw [throughClose]
    split
    · next hclose =>
      rcases List.head?_eq_some_iff.1 hclose.2 with ⟨after, rfl⟩
      refine ⟨?_, by simp⟩
      rintro closed ⟨⟩
      rw [extendAll, hstep, hclose.1]
      rfl
    · next hclose =>
      have hnext : decide (g = .char '*') = true → rest.head? ≠ some (.char '/') := by
        intro hg hhead
        exact hclose ⟨of_decide_eq_true hg, hhead⟩
      rcases ih (p.after g) _ hnext with ⟨hsome, hnone⟩
      constructor
      · intro closed hclosed
        rcases Option.map_eq_some_iff.1 hclosed with ⟨closed', hclosed', rfl⟩
        rw [extendAll, hstep, Option.bind_some, hsome closed' hclosed']
      · intro hopen
        rcases hnone (Option.map_eq_none_iff.1 hopen) with ⟨star', hstar'⟩
        exact ⟨star', by rw [extendAll, hstep, Option.bind_some, hstar']⟩

end Phase

/-! ### The piece at the front of a text -/

namespace Piece

/-- The scanner takes the piece from the front of a text: the first glyph starts a phase, the others
belong to it and the next one does not, and the records are those of the piece. -/
def Taken (p : Pos) (g : Glyph) (rest : List Glyph) (piece : Piece) : Prop :=
  ∃ more after journal phase phase', piece.glyphs = g :: more ∧ more ++ after = rest ∧
    Phase.start p g = (journal, phase) ∧ phase.extendAll (p.after g) more = some phase' ∧
    (∀ g' ∈ after.head?, ∀ q, phase'.extend? q g' = none) ∧
    journal ++ phase'.complete = piece.records p

/-- What follows the longest run of some glyphs does not go on with it. -/
theorem head?_dropWhile_eq_false {P : Glyph → Bool} {glyphs : List Glyph} {g : Glyph}
    (h : g ∈ (glyphs.dropWhile P).head?) : P g = false := by
  have hnot := List.head?_dropWhile_not P glyphs
  rw [Option.mem_def.1 h] at hnot
  simpa using hnot

variable (p : Pos) (rest : List Glyph)

/-- A glyph that starts a phase to which nothing belongs is a piece of its own. -/
theorem taken_single {g : Glyph} {journal : Journal} {phase : Phase} {piece : Piece}
    (hglyphs : piece.glyphs = [g]) (hstart : Phase.start p g = (journal, phase))
    (hstop : ∀ g' ∈ rest.head?, ∀ q, phase.extend? q g' = none)
    (hrecords : journal ++ phase.complete = piece.records p) : piece.Taken p g rest :=
  ⟨[], rest, journal, phase, phase, hglyphs, rfl, hstart, rfl, hstop, hrecords⟩

/-- A glyph that starts a phase to which all glyphs of some sort belong, and no others, is a piece
with all such glyphs behind it. -/
theorem taken_run {g : Glyph} {P : Glyph → Bool} (phase : List Glyph → Phase) {piece : Piece}
    (hglyphs : piece.glyphs = g :: rest.takeWhile P)
    (hstart : Phase.start p g = ([], phase [g]))
    (hstep : ∀ glyphs g', P g' = true →
      (phase glyphs).extend? (p.afterAll glyphs) g' = some (phase (glyphs ++ [g'])))
    (hstop : ∀ glyphs g', P g' = false → ∀ q, (phase glyphs).extend? q g' = none)
    (hrecords : (phase piece.glyphs).complete = piece.records p) : piece.Taken p g rest := by
  refine ⟨rest.takeWhile P, rest.dropWhile P, [], phase [g], phase piece.glyphs, hglyphs,
    List.takeWhile_append_dropWhile, hstart, ?_, ?_, hrecords⟩
  · rw [hglyphs]
    exact Phase.extendAll_run phase hstep [g] fun g' hg' => List.mem_takeWhile_imp hg'
  · intro g' hg'
    exact hstop _ g' (head?_dropWhile_eq_false hg')

theorem taken_slash : (slash rest).Taken p (.char '/') rest := by
  unfold slash
  split
  · next body =>
    have hstep (q : Pos) (g : Glyph) (hg : decide (g ≠ .char '\n') = true) :
        Phase.extend? q g .lineComment = some .lineComment := by
      rw [Phase.extend?, if_neg (of_decide_eq_true hg)]
    have hline (g : Glyph) (hg : g ∈ body.takeWhile (· ≠ .char '\n')) :
        decide (g ≠ .char '\n') = true := by
      simpa using List.mem_takeWhile_imp hg
    refine ⟨.char '/' :: body.takeWhile (· ≠ .char '\n'), body.dropWhile (· ≠ .char '\n'), [],
      .slash p, .lineComment, rfl, ?_, rfl, ?_, ?_, rfl⟩
    · rw [List.cons_append, List.takeWhile_append_dropWhile]
    · exact Phase.extendAll_run (fun _ => .lineComment) (fun _ => hstep _)
        [.char '/', .char '/'] hline
    · intro g' hg' q
      have hend := head?_dropWhile_eq_false hg'
      rw [Phase.extend?, if_pos (by simpa using hend)]
  · next body =>
    rcases Phase.extendAll_blockComment ((p.after (.char '/')).after (.char '*')) p false body
      (by simp) with ⟨hclosed, hopen⟩
    split
    · next closed hthrough =>
      rcases throughClose_append hthrough with ⟨after, rfl⟩
      exact ⟨.char '*' :: closed, after, [], .slash p, .gap, rfl, rfl, rfl,
        hclosed closed hthrough, fun _ _ _ => rfl, rfl⟩
    · next hthrough =>
      rcases hopen hthrough with ⟨star, hstar⟩
      exact ⟨.char '*' :: body, [], [], .slash p, .blockComment p star, rfl, List.append_nil _, rfl,
        hstar, by simp, rfl⟩
  · next hline hblock =>
    refine taken_single p rest rfl (Phase.start_slash p) ?_ rfl
    intro g' hg' q
    rcases List.head?_eq_some_iff.1 hg' with ⟨body, rfl⟩
    unfold Phase.extend?
    split <;> simp_all

/-- A number is reported if it does not fit, and its token carries what is left of it. -/
theorem complete_number (glyphs : List Glyph) :
    Phase.complete (.number (.over p glyphs) (Numeral.read (Glyph.chars glyphs)))
      = (number glyphs).records p := by
  have hvalue : (Numeral.read (Glyph.chars glyphs)).value
      = .ofNat (Numeral.decimal (Glyph.chars glyphs)) := by
    apply UInt64.toNat_inj.1
    rw [Numeral.value_read, UInt64.toNat_ofNat']
  have hfits := Numeral.fits_read_iff (Glyph.chars glyphs)
  by_cases h : Numeral.decimal (Glyph.chars glyphs) < UInt64.size
  · simp [Phase.complete, number, records, Run.over, hvalue, h, hfits.2 h]
  · have hover := mt hfits.1 h
    simp [Phase.complete, number, records, place, Run.over, hvalue, h, hover]

theorem taken_number {c : Char} (hc : c.isDigit = true) :
    (number (.char c :: rest.takeWhile Glyph.isDigit)).Taken p (.char c) rest := by
  refine taken_run p rest (P := Glyph.isDigit)
    (fun glyphs => .number (.over p glyphs) (Numeral.read (Glyph.chars glyphs)))
    rfl ?_ ?_ ?_ (complete_number p _)
  · rw [Phase.start_digit hc, Run.single_eq_over]
    rfl
  · intro glyphs g hg
    cases g with
    | malformed fault => cases hg
    | char d =>
      have hread : Numeral.read (Glyph.chars (glyphs ++ [.char d]))
          = (Numeral.read (Glyph.chars glyphs)).push d := by
        rw [Glyph.chars_concat, Numeral.read, List.foldl_append]
        rfl
      simp only [Phase.extend?, Run.push_over, hread]
      exact if_pos hg
  · intro glyphs g hg q
    cases g with
    | malformed fault => rfl
    | char d => exact if_neg (Bool.eq_false_iff.1 hg)

theorem taken_word {c : Char} (hc : startsWord c = true) :
    (word (.char c :: rest.takeWhile Glyph.continuesWord)).Taken p (.char c) rest := by
  refine taken_run p rest (P := Glyph.continuesWord) (fun glyphs => .word (.over p glyphs))
    rfl ?_ ?_ ?_ rfl
  · rw [Phase.start_word hc, Run.single_eq_over]
  · intro glyphs g hg
    cases g with
    | malformed fault => cases hg
    | char d =>
      simp only [Phase.extend?, Run.push_over]
      exact if_pos hg
  · intro glyphs g hg q
    cases g with
    | malformed fault => rfl
    | char d => exact if_neg (Bool.eq_false_iff.1 hg)

/-- The scanner takes the first piece of every text. -/
theorem taken_front (g : Glyph) : (front g rest).Taken p g rest := by
  cases g with
  | malformed fault => exact taken_single p rest rfl rfl (fun _ _ _ => rfl) rfl
  | char c =>
    rw [front]
    split
    · next hblank =>
      exact taken_single p rest rfl (Phase.start_blank hblank p) (fun _ _ _ => rfl) rfl
    · next hblank =>
      split
      · next hslash =>
        subst hslash
        exact taken_slash p rest
      · next hslash =>
        split
        · next hdigit => exact taken_number p rest hdigit
        · next hdigit =>
          split
          · next hword => exact taken_word p rest hword
          · next hword =>
            split
            · next kind hkind =>
              exact taken_single p rest rfl (Phase.start_mark hkind p) (fun _ _ _ => rfl) rfl
            · next hkind =>
              have hstart : Phase.start p (.char c)
                  = ([.finding ⟨.single p, .strayChar c⟩], .gap) := by
                simp [Phase.start, hblank, hslash, hdigit, hword, hkind]
              exact taken_single p rest rfl hstart (fun _ _ _ => rfl) rfl

/-- A piece that starts with a digit is the longest run of digits. -/
theorem front_digit {g : Glyph} (h : g.isDigit = true) (rest : List Glyph) :
    front g rest = number (g :: rest.takeWhile Glyph.isDigit) := by
  cases g with
  | malformed fault => cases h
  | char c =>
    have hc : c.isDigit = true := h
    have hslash : c ≠ '/' := by
      rintro rfl
      cases hc
    simp [front, isBlank_of_isDigit hc, hslash, hc]

end Piece

/-! ### All pieces -/

/-- What the first piece of a text leaves is cut into the other pieces. -/
theorem Piece.front_append (g : Glyph) (rest : List Glyph) :
    (front g rest).glyphs ++ rest.drop ((front g rest).glyphs.length - 1) = g :: rest := by
  rcases taken_front .start rest g with ⟨more, after, -, -, -, hfront, rfl, -⟩
  rw [hfront, List.length_cons, Nat.add_sub_cancel, List.drop_left]
  rfl

/-- What holds of the end of a text, and of a piece in front of a text, holds of all texts. -/
theorem pieces_induction {P : List Glyph → List Piece → Prop} (nil : P [] [])
    (cons : ∀ g rest after, (Piece.front g rest).glyphs ++ after = g :: rest →
      P after (pieces after) → P (g :: rest) (Piece.front g rest :: pieces after))
    (glyphs : List Glyph) : P glyphs (pieces glyphs) := by
  fun_induction pieces glyphs with
  | case1 => exact nil
  | case2 g rest ih => exact cons g rest _ (Piece.front_append g rest) ih

/-- Each glyph of a text belongs to one piece. -/
theorem flatMap_pieces (glyphs : List Glyph) : (pieces glyphs).flatMap Piece.glyphs = glyphs := by
  refine pieces_induction (P := fun glyphs ps => ps.flatMap Piece.glyphs = glyphs) rfl ?_ glyphs
  intro g rest after hfront ih
  rw [List.flatMap_cons, ih, hfront]

/-- What stands behind some pieces of a text is cut into its other pieces. -/
theorem pieces_of_append {text : List Glyph} {before after : List Piece}
    (h : pieces text = before ++ after) :
    text.drop (before.flatMap Piece.glyphs).length = after.flatMap Piece.glyphs ∧
      after = pieces (after.flatMap Piece.glyphs) := by
  constructor
  · have hsplit := flatMap_pieces text
    rw [h, List.flatMap_append] at hsplit
    rw [← hsplit, List.drop_left]
  · induction before generalizing text with
    | nil =>
      rw [List.nil_append] at h
      rw [← h, flatMap_pieces]
    | cons piece before ih =>
      cases text with
      | nil =>
        rw [pieces] at h
        cases h
      | cons g rest =>
        rw [pieces, List.cons_append, List.cons.injEq] at h
        exact ih h.2

/-- Scanning records the first piece of a text and goes on behind it. -/
theorem scanned_front (p : Pos) {g : Glyph} {rest after : List Glyph}
    (h : (Piece.front g rest).glyphs ++ after = g :: rest) :
    scanned p .gap (g :: rest)
      = (Piece.front g rest).records p
        ++ scanned (p.afterAll (Piece.front g rest).glyphs) .gap after := by
  rcases Piece.taken_front p rest g with
    ⟨more, after', journal, phase, phase', hglyphs, hrest, hstart, hextend, hstop, hrecords⟩
  rw [hglyphs, List.cons_append, List.cons.injEq, ← hrest] at h
  obtain rfl := List.append_cancel_left h.2
  subst hrest
  rw [scanned_start, hstart, scanned_extendAll hextend,
    scanned_complete _ fun g' hg' => hstop g' hg' _, ← List.append_assoc, hrecords, hglyphs,
    Pos.afterAll_cons]

/-- The scanner finds the tokens and the problems of the pieces, and then the end of the file. -/
theorem scanned_eq_journal (p : Pos) (glyphs : List Glyph) :
    scanned p .gap glyphs
      = Piece.journal p (pieces glyphs) ++ [.view (.eof (.single (p.afterAll glyphs)))] := by
  refine pieces_induction (P := fun glyphs ps => ∀ p, scanned p .gap glyphs
    = Piece.journal p ps ++ [.view (.eof (.single (p.afterAll glyphs)))]) ?_ ?_ glyphs p
  · exact fun p => scanned_nil p .gap
  · intro g rest after hfront ih p
    rw [scanned_front p hfront, ih, Piece.journal, List.append_assoc, ← hfront, Pos.afterAll_append]

/-- Nothing is found when a text first comes into view, unless it could not be read. -/
theorem Text.findings_opening (glyphs : List Glyph) :
    (Text.opening ⟨glyphs, none⟩).findings = [] := by
  rw [Text.opening, ← Journal.findings_lexical, lexical_arrival]
  rfl

/-- The records of a text are those of its pieces, apart from records of byte sequences that came
into view, and last the end of the file. -/
theorem Text.scan_pieces (glyphs : List Glyph) :
    ∃ body, Text.scan ⟨glyphs, none⟩
        = body ++ [.view (.eof (.single (Pos.start.afterAll glyphs)))] ∧
      Journal.lexical body = Piece.journal .start (pieces glyphs) := by
  rcases Text.scan_spelled ⟨glyphs, none⟩ with ⟨body, span, hbody, -⟩
  have hscan : Journal.lexical (Text.scan ⟨glyphs, none⟩) = _ := scanned_eq_journal .start glyphs
  rw [hbody, Journal.lexical_append] at hscan
  rcases List.append_inj' hscan rfl with ⟨hlexical, hlast⟩
  have hlast' : [Record.view (.eof span)] = _ := hlast
  exact ⟨body, hlast' ▸ hbody, hlexical⟩

/-! ## Where tokens stand -/

theorem Pos.lt_trans {p q r : Pos} (h : p < q) (h' : q < r) : p < r := by
  rw [lt_def] at *
  omega

theorem Pos.lt_irrefl (p : Pos) : ¬ p < p := by
  rw [lt_def]
  omega

theorem Pos.lt_after (p : Pos) (g : Glyph) : p < p.after g := by
  cases g with
  | char c => exact p.lt_advance c
  | malformed fault => exact Or.inr ⟨rfl, Nat.lt_succ_self _⟩

theorem Pos.lt_afterAll (p : Pos) {glyphs : List Glyph} (h : glyphs ≠ []) :
    p < p.afterAll glyphs := by
  induction glyphs generalizing p with
  | nil => exact absurd rfl h
  | cons g rest ih =>
    cases rest with
    | nil => exact p.lt_after g
    | cons g' rest => exact Pos.lt_trans (p.lt_after g) (ih (p.after g) (by simp))

theorem Piece.glyphs_ne_nil {piece : Piece} {glyphs : List Glyph} (h : piece ∈ pieces glyphs) :
    piece.glyphs ≠ [] := by
  refine pieces_induction (P := fun _ ps => ∀ piece ∈ ps, piece.glyphs ≠ []) (by simp) ?_ glyphs
    piece h
  intro g rest after _ ih piece hpiece
  rcases List.mem_cons.1 hpiece with rfl | hpiece
  · rcases taken_front .start rest g with ⟨more, -, -, -, -, hglyphs, -⟩
    simp [hglyphs]
  · exact ih piece hpiece

/-- The tokens of pieces stand one behind the other. -/
theorem Piece.tokens_journal_lt (p : Pos) {ps : List Piece} (h : ∀ piece ∈ ps, piece.glyphs ≠ []) :
    (∀ token ∈ (journal p ps).tokens, token.span.first = p ∨ p < token.span.first) ∧
      (journal p ps).tokens.Pairwise fun token token' => token.span.first < token'.span.first := by
  induction ps generalizing p with
  | nil => exact ⟨by simp [journal, Journal.tokens], List.Pairwise.nil⟩
  | cons piece ps ih =>
    have hlt := p.lt_afterAll (h piece (List.mem_cons_self ..))
    have hps : ∀ piece' ∈ ps, piece'.glyphs ≠ [] :=
      fun piece' hpiece' => h piece' (List.mem_cons_of_mem _ hpiece')
    rcases ih (p.afterAll piece.glyphs) hps with ⟨hafter, hpairwise⟩
    have hfirst : (piece.records p).tokens = [] ∨
        ∃ kind, (piece.records p).tokens = [⟨kind, .over p piece.glyphs⟩] := by
      rcases piece with ⟨glyphs, - | kind, - | problem⟩
      · exact Or.inl rfl
      · exact Or.inl rfl
      · exact Or.inr ⟨kind, rfl⟩
      · exact Or.inr ⟨kind, rfl⟩
    have hbehind : ∀ token ∈ (journal (p.afterAll piece.glyphs) ps).tokens,
        p < token.span.first := by
      intro token htoken
      rcases hafter token htoken with heq | hgt
      · exact heq ▸ hlt
      · exact Pos.lt_trans hlt hgt
    rw [journal, Journal.tokens_append]
    rcases hfirst with hnone | ⟨kind, hone⟩
    · rw [hnone, List.nil_append]
      exact ⟨fun token htoken => Or.inr (hbehind token htoken), hpairwise⟩
    · rw [hone, List.singleton_append]
      refine ⟨?_, List.pairwise_cons.2 ⟨hbehind, hpairwise⟩⟩
      intro token htoken
      rcases List.mem_cons.1 htoken with rfl | htoken
      · exact Or.inl rfl
      · exact Or.inr (hbehind token htoken)

/-- A failure to read changes no token in front of it. -/
theorem tokens_scanFrom (failure : Option String) (p : Pos) (phase : Phase) (glyphs : List Glyph) :
    Journal.tokens (scanFrom failure p phase #[] glyphs).toList
      = Journal.tokens (scanFrom none p phase #[] glyphs).toList := by
  have harrival : ∀ failure q rest, Journal.tokens (arrival failure q rest) = [] := by
    intro failure q rest
    rcases rest with - | ⟨c | fault, rest⟩
    · cases failure <;> rfl
    · rfl
    · rfl
  induction glyphs generalizing p phase with
  | nil => rfl
  | cons g rest ih =>
    rw [scanFrom, scanFrom_acc, scanFrom, scanFrom_acc none]
    simp only [Array.toList_appendList, Journal.tokens_append, harrival, ih]

/-- The tokens of a text are those of its pieces. -/
theorem Text.tokens_scan (text : Text) :
    text.scan.tokens = (Piece.journal .start (pieces text.glyphs)).tokens := by
  rcases text with ⟨glyphs, failure⟩
  rcases Text.scan_pieces glyphs with ⟨body, hscan, hlexical⟩
  rw [← hlexical, Journal.tokens_lexical]
  refine (tokens_scanFrom failure .start .gap glyphs).trans ?_
  refine (congrArg Journal.tokens hscan).trans ?_
  rw [Journal.tokens_append]
  exact List.append_nil _

/-- The tokens of a text stand one behind the other. -/
theorem Text.tokens_scan_lt (text : Text) :
    text.scan.tokens.Pairwise fun token token' => token.span.first < token'.span.first := by
  rw [text.tokens_scan]
  exact (Piece.tokens_journal_lt .start fun _ hpiece => Piece.glyphs_ne_nil hpiece).2

end LetCalc
