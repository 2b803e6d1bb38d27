import LetCalc.Token.Scan

/-!
# Spelling tokens

A token that is written down is scanned as itself, whatever follows, as long as the character after
it does not belong to it.  In the other direction, the scanner finds no token that could not be
written down again.

Main results:

- Theorem `Scans.token`: a spelled token in front of more text is scanned as this token.
- Theorem `scans_spaced`: tokens spelled with blanks between them are scanned as they are.
- Theorem `Text.scan_spelled`: the tokens of a text can be spelled, and the end of the file is its
  last record and no other.
-/

namespace LetCalc

/-! ## Words and names -/

/-- Whether a text is a word: a letter or an underscore, then letters, underscores and digits. -/
def isWord (x : String) : Bool :=
  match x.toList with
  | [] => false
  | c :: cs => startsWord c && cs.all continuesWord

/-- Whether a text is a word that can name a variable. -/
def isName (x : String) : Bool := isWord x && x ≠ "let" && x ≠ "print"

theorem isName_iff {x : String} :
    isName x = true ↔ isWord x = true ∧ Kind.ofWord x = .identifier x := by
  by_cases hlet : x = "let"
  · simp [isName, Kind.ofWord, hlet]
  · by_cases hprint : x = "print"
    · simp [isName, Kind.ofWord, hprint]
    · simp [isName, Kind.ofWord, hlet, hprint]

/-- A word goes on with the characters that can go on with words. -/
theorem isWord_push {x : String} {c : Char} (hx : isWord x = true) (hc : continuesWord c = true) :
    isWord (x.push c) = true := by
  unfold isWord at hx ⊢
  rw [String.toList_push]
  cases hlist : x.toList with
  | nil => simp [hlist] at hx
  | cons d ds => simp_all

theorem isWord_singleton {c : Char} (h : startsWord c = true) : isWord c.toString = true := by
  simp [isWord, Char.toString, h]

/-! ## Characters that start a token -/

/-- No letter is blank. -/
theorem isLetter_of_isBlank {c : Char} (h : isBlank c = true) : isLetter c = false := by
  have hsorted : blankRanges.Sorted := by simp [blankRanges, Ranges.Sorted]
  rcases (Ranges.contains_iff hsorted c.toNat).1 h with ⟨r, hr, hlo, hhi⟩
  have hall : ∀ r ∈ blankRanges, ∀ k < r.2 + 1 - r.1, letterRanges.contains (r.1 + k) = false := by
    decide +kernel
  have hletter := hall r hr (c.toNat - r.1) (by omega)
  rwa [Nat.add_sub_cancel' hlo] at hletter

theorem isBlank_of_startsWord {c : Char} (h : startsWord c = true) : isBlank c = false := by
  cases hblank : isBlank c with
  | false => rfl
  | true =>
    have hletter := isLetter_of_isBlank hblank
    simp only [startsWord, hletter, Bool.or_false, beq_iff_eq] at h
    subst h
    exact absurd hblank (by decide)

theorem isBlank_of_isDigit {c : Char} (h : c.isDigit = true) : isBlank c = false := by
  have hdigit : 48 ≤ c.toNat ∧ c.toNat ≤ 57 := by
    simpa [Char.isDigit, UInt32.le_iff_toNat_le] using h
  simp only [isBlank, blankRanges, Ranges.contains_cons, Ranges.contains_nil]
  simp only [Bool.and_eq_false_iff, Bool.or_eq_false_iff, decide_eq_false_iff_not]
  omega

/-- The punctuation that is a token by itself belongs to no word and no number. -/
theorem ofChar?_eq_none {c : Char} (h : continuesWord c = true) :
    (Kind.ofChar? c : Option (Kind String)) = none := by
  unfold Kind.ofChar?
  split
  case h_8 => rfl
  all_goals exact absurd h (by decide)

theorem ne_slash_of_continuesWord {c : Char} (h : continuesWord c = true) : c ≠ '/' := by
  rintro rfl
  exact absurd h (by decide)

/-- No letter is a digit. -/
theorem isDigit_of_startsWord {c : Char} (h : startsWord c = true) : c.isDigit = false := by
  cases hdigit : c.isDigit with
  | false => rfl
  | true =>
    have hrange : 48 ≤ c.toNat ∧ c.toNat ≤ 57 := by
      simpa [Char.isDigit, UInt32.le_iff_toNat_le] using hdigit
    have hall : ∀ n < 10, letterRanges.contains (48 + n) = false := by decide
    have hletter : isLetter c = false := by
      have hn := hall (c.toNat - 48) (by omega)
      rwa [Nat.add_sub_cancel' hrange.1] at hn
    simp only [startsWord, hletter, Bool.or_false, beq_iff_eq] at h
    subst h
    exact absurd hdigit (by decide)

namespace Phase

theorem start_blank {c : Char} (h : isBlank c = true) (p : Pos) :
    start p (.char c) = ([], gap) := by
  simp [start, h]

theorem start_mark {c : Char} {kind : Kind String} (h : Kind.ofChar? c = some kind) (p : Pos) :
    start p (.char c) = ([], mark kind p) := by
  have hblank : isBlank c = false := by
    unfold Kind.ofChar? at h
    split at h
    case h_8 => cases h
    all_goals decide
  simp [start, hblank, h]

theorem start_slash (p : Pos) : start p (.char '/') = ([], slash p) := rfl

theorem start_digit {c : Char} (h : c.isDigit = true) (p : Pos) :
    start p (.char c) = ([], number (.single p c) (Numeral.zero.push c)) := by
  have hcontinues : continuesWord c = true := by simp [continuesWord, h]
  simp [start, isBlank_of_isDigit h, ofChar?_eq_none hcontinues,
    ne_slash_of_continuesWord hcontinues, h]

theorem start_word {c : Char} (h : startsWord c = true) (p : Pos) :
    start p (.char c) = ([], word (.single p c)) := by
  have hcontinues := continuesWord_of_startsWord h
  simp [start, isBlank_of_startsWord h, ofChar?_eq_none hcontinues,
    ne_slash_of_continuesWord hcontinues, isDigit_of_startsWord h, h]

end Phase

/-! ## Scanning on from a phase -/

/-- The kinds of the tokens that came into view. -/
def Journal.kinds (journal : Journal) : List (Kind String) := journal.tokens.map Token.kind

@[simp]
theorem Journal.kinds_append (j k : Journal) : kinds (j ++ k) = kinds j ++ kinds k := by
  simp [kinds]

/-- A phase to which the next glyph does not belong is completed, and scanning goes on as from
between tokens. -/
theorem scanFrom_complete (failure : Option String) (p : Pos) {phase : Phase}
    {glyphs : List Glyph} (h : ∀ g ∈ glyphs.head?, phase.extend? p g = none) :
    (scanFrom failure p phase #[] glyphs).toList
      = phase.complete ++ (scanFrom failure p .gap #[] glyphs).toList := by
  cases glyphs with
  | nil => simp [scanFrom, Phase.complete]
  | cons g rest =>
    have hphase : phase.step p g
        = (phase.complete ++ (Phase.start p g).1, (Phase.start p g).2) := by
      simp [Phase.step, h g rfl]
    have hgap : Phase.step p g .gap = Phase.start p g := by
      simp [Phase.step, Phase.extend?, Phase.complete]
    rw [scanFrom, scanFrom_acc, hphase, scanFrom, scanFrom_acc _ _ _ (#[] ++ _ ++ _), hgap]
    simp

/-- From this phase on the text is scanned as tokens of these kinds, and nothing is found. -/
def Scans (phase : Phase) (cs : List Char) (ks : List (Kind String)) : Prop :=
  ∀ p, Journal.kinds (scanFrom none p phase #[] (cs.map .char)).toList = ks ∧
    Journal.findings (scanFrom none p phase #[] (cs.map .char)).toList = []

namespace Scans

variable {phase : Phase} {c : Char} {cs : List Char} {kind : Kind String} {ks : List (Kind String)}

private theorem step
    (h : ∀ p, ∃ phase', phase.step p (.char c) = ([], phase') ∧ Scans phase' cs ks) :
    Scans phase (c :: cs) ks := by
  intro p
  rcases h p with ⟨phase', hstep, hscans⟩
  have harrival : arrival none (p.after (.char c)) (cs.map .char) = [] := by
    cases cs <;> rfl
  have hrest := hscans (p.after (.char c))
  rw [List.map_cons, scanFrom, hstep, harrival]
  simpa using hrest

/-- A character that belongs to the phase. -/
theorem extend (h : ∀ p, ∃ phase', phase.extend? p (.char c) = some phase' ∧ Scans phase' cs ks) :
    Scans phase (c :: cs) ks := by
  apply step
  intro p
  rcases h p with ⟨phase', hextend, hscans⟩
  exact ⟨phase', by simp [Phase.step, hextend], hscans⟩

/-- A character that starts a phase. -/
theorem start (h : ∀ p, ∃ phase', Phase.start p (.char c) = ([], phase') ∧ Scans phase' cs ks) :
    Scans .gap (c :: cs) ks := by
  apply step
  intro p
  rcases h p with ⟨phase', hstart, hscans⟩
  exact ⟨phase', by simp [Phase.step, Phase.extend?, Phase.complete, hstart], hscans⟩

/-- A token that is complete. -/
theorem complete (hstop : ∀ c ∈ cs.head?, ∀ p, phase.extend? p (.char c) = none)
    (hkinds : Journal.kinds phase.complete = [kind])
    (hfindings : Journal.findings phase.complete = []) (h : Scans .gap cs ks) :
    Scans phase cs (kind :: ks) := by
  intro p
  have hglyphs : ∀ g ∈ (cs.map Glyph.char).head?, phase.extend? p g = none := by
    cases cs with
    | nil => simp
    | cons c cs =>
      intro g hg
      cases hg
      exact hstop c rfl p
  rw [scanFrom_complete none p hglyphs, Journal.kinds_append, Journal.findings_append, hkinds,
    hfindings]
  simpa using h p

theorem nil : Scans .gap [] [] := by
  intro p
  simp [scanFrom, Phase.complete, Journal.kinds, Journal.tokens, Journal.findings, Record.token?,
    Record.view?, Record.finding?]

theorem blank (hc : isBlank c = true) (h : Scans .gap cs ks) : Scans .gap (c :: cs) ks :=
  start fun p => ⟨.gap, Phase.start_blank hc p, h⟩

theorem space (h : Scans .gap cs ks) : Scans .gap (' ' :: cs) ks :=
  blank (by decide) h

/-! ## Tokens -/

/-- A token of one character that nothing extends. -/
theorem mark (hc : Kind.ofChar? c = some kind) (h : Scans .gap cs ks) :
    Scans .gap (c :: cs) (kind :: ks) :=
  start fun p => ⟨.mark kind p, Phase.start_mark hc p, complete (fun _ _ _ => rfl) rfl rfl h⟩

/-- A slash that opens no comment. -/
theorem slash (hcs : ∀ c ∈ cs.head?, c ≠ '/' ∧ c ≠ '*') (h : Scans .gap cs ks) :
    Scans .gap ('/' :: cs) (.slash :: ks) := by
  refine start fun p => ⟨.slash p, Phase.start_slash p, complete ?_ rfl rfl h⟩
  intro c hc q
  rcases hcs c hc with ⟨hslash, hstar⟩
  unfold Phase.extend?
  split <;> simp_all

private theorem wordFrom {w : List Char} (run : Run) (hw : w.all continuesWord = true)
    (hcs : ∀ c ∈ cs.head?, continuesWord c = false) (h : Scans .gap cs ks) :
    Scans (.word run) (w ++ cs) (Kind.ofWord (run.text ++ String.ofList w) :: ks) := by
  induction w generalizing run with
  | nil =>
    have htext : run.text ++ String.ofList [] = run.text := by simp
    rw [htext, List.nil_append]
    refine complete ?_ rfl rfl h
    intro c hc q
    simp [Phase.extend?, hcs c hc]
  | cons c w ih =>
    have hc : continuesWord c = true := by simp_all
    have htext : ∀ q, run.text ++ String.ofList (c :: w)
        = (run.push q c).text ++ String.ofList w := by
      intro q
      apply String.toList_inj.1
      simp [Run.push]
    refine extend fun q => ⟨.word (run.push q c), by simp [Phase.extend?, hc], ?_⟩
    rw [htext q]
    exact ih _ (by simp_all)

/-- A word, up to a character that cannot go on with it. -/
theorem word {x : String} (hx : isWord x = true) (hcs : ∀ c ∈ cs.head?, continuesWord c = false)
    (h : Scans .gap cs ks) : Scans .gap (x.toList ++ cs) (Kind.ofWord x :: ks) := by
  have hword := hx
  unfold isWord at hword
  cases hlist : x.toList with
  | nil => simp [hlist] at hword
  | cons c w =>
    simp only [hlist, Bool.and_eq_true] at hword
    have htext : ∀ p, x = (Run.single p c).text ++ String.ofList w := by
      intro p
      apply String.toList_inj.1
      simp [Run.single, hlist]
    refine start fun p => ⟨.word (.single p c), Phase.start_word hword.1 p, ?_⟩
    rw [htext p]
    exact wordFrom _ hword.2 hcs h

private theorem numberFrom {ds : List Char} (run : Run) (n : Numeral)
    (hds : ∀ d ∈ ds, d.isDigit = true) (hfits : (ds.foldl Numeral.push n).fits = true)
    (hcs : ∀ c ∈ cs.head?, c.isDigit = false) (h : Scans .gap cs ks) :
    Scans (.number run n) (ds ++ cs) (.int (ds.foldl Numeral.push n).value :: ks) := by
  induction ds generalizing run n with
  | nil =>
    have hcomplete : Phase.complete (.number run n) = [.view (.ofToken ⟨.int n.value, run.span⟩)] :=
      if_pos hfits
    refine complete ?_ (by rw [hcomplete]; rfl) (by rw [hcomplete]; rfl) h
    intro c hc q
    simp [Phase.extend?, hcs c hc]
  | cons d ds ih =>
    have hd := hds d (List.mem_cons_self ..)
    refine extend fun q => ⟨.number (run.push q d) (n.push d), by simp [Phase.extend?, hd], ?_⟩
    exact ih _ _ (fun d' hd' => hds d' (List.mem_cons_of_mem _ hd')) hfits

/-- A number in decimal digits, up to a character that is no digit. -/
theorem int (v : UInt64) (hcs : ∀ c ∈ cs.head?, c.isDigit = false) (h : Scans .gap cs ks) :
    Scans .gap (v.toNat.repr.toList ++ cs) (.int v :: ks) := by
  have hdecimal : Numeral.decimal (Nat.toDigits 10 v.toNat) = v.toNat := by
    have hdigits := Nat.ofDigitChars_ten_toDigits (n := v.toNat)
    rw [Nat.ofDigitChars_eq_foldl] at hdigits
    simpa only [Numeral.decimal, Numeral.digit, Nat.mul_comm] using hdigits
  have hlt : v.toNat < UInt64.size := v.toNat_lt
  have hfits : (Numeral.read (Nat.toDigits 10 v.toNat)).fits = true := by
    rwa [Numeral.fits_read_iff, hdecimal]
  have hvalue : (Numeral.read (Nat.toDigits 10 v.toNat)).value = v := by
    apply UInt64.toNat_inj.1
    rw [Numeral.value_read, hdecimal, Nat.mod_eq_of_lt hlt]
  have hdigit : ∀ d ∈ Nat.toDigits 10 v.toNat, d.isDigit = true :=
    fun d hd => Nat.isDigit_of_mem_toDigits (by decide) (by decide) hd
  rw [Nat.toList_repr]
  cases hlist : Nat.toDigits 10 v.toNat with
  | nil => exact absurd hlist Nat.toDigits_ne_nil
  | cons d ds =>
    rw [hlist] at hfits hvalue hdigit
    refine start fun p => ⟨_, Phase.start_digit (hdigit d (List.mem_cons_self ..)) p, ?_⟩
    have hds : ∀ d' ∈ ds, d'.isDigit = true := fun d' hd' => hdigit d' (List.mem_cons_of_mem _ hd')
    have hnumber := numberFrom (.single p d) (Numeral.zero.push d) hds hfits hcs h
    rwa [show (ds.foldl Numeral.push (Numeral.zero.push d)).value = v from hvalue] at hnumber

end Scans

/-- Whether the token can be spelled: a name is not spelled like a keyword. -/
def Kind.isSpellable : Kind String → Bool
  | .identifier x => isName x
  | _ => true

/-- Whether the character after a token does not belong to the token. -/
def Kind.Parted (kind : Kind String) (cs : List Char) : Prop :=
  match kind with
  | .slash => ∀ c ∈ cs.head?, c ≠ '/' ∧ c ≠ '*'
  | .int _ => ∀ c ∈ cs.head?, c.isDigit = false
  | .keywordLet | .keywordPrint | .identifier _ => ∀ c ∈ cs.head?, continuesWord c = false
  | _ => True

/-- A spelled token in front of more text is scanned as this token. -/
theorem Scans.token {kind : Kind String} {cs : List Char} {ks : List (Kind String)}
    (hkind : kind.isSpellable = true) (hcs : kind.Parted cs) (h : Scans .gap cs ks) :
    Scans .gap (kind.text.toList ++ cs) (kind :: ks) := by
  cases kind with
  | leftParen | rightParen | equal | semicolon | plus | minus | star => exact Scans.mark rfl h
  | slash => exact Scans.slash hcs h
  | keywordLet => exact Scans.word (x := "let") (by decide) hcs h
  | keywordPrint => exact Scans.word (x := "print") (by decide) hcs h
  | int v => exact Scans.int v hcs h
  | identifier x =>
    rcases isName_iff.1 hkind with ⟨hword, hname⟩
    have hscans := Scans.word hword hcs h
    rwa [hname] at hscans

/-- What holds of the first character holds of what comes next. -/
theorem forall_head?_cons {P : Char → Prop} {c : Char} (h : P c) (cs : List Char) :
    ∀ d ∈ (c :: cs).head?, P d := by
  intro d hd
  cases hd
  exact h

/-- No word goes on with a blank. -/
theorem continuesWord_of_isBlank {c : Char} (h : isBlank c = true) : continuesWord c = false := by
  cases hword : continuesWord c with
  | false => rfl
  | true =>
    rw [continuesWord, Bool.or_eq_true] at hword
    rcases hword with hstart | hdigit
    · simp [isBlank_of_startsWord hstart] at h
    · simp [isBlank_of_isDigit hdigit] at h

/-- A blank parts every token from what follows. -/
theorem Kind.parted_blank (kind : Kind String) {c : Char} (hc : isBlank c = true)
    (cs : List Char) : kind.Parted (c :: cs) := by
  have hword := continuesWord_of_isBlank hc
  have hdigit : c.isDigit = false := by simp_all [continuesWord]
  have hcomment : c ≠ '/' ∧ c ≠ '*' := by
    constructor
    · rintro rfl
      exact absurd hc (by decide)
    · rintro rfl
      exact absurd hc (by decide)
  cases kind with
  | leftParen | rightParen | equal | semicolon | plus | minus | star => trivial
  | slash => exact forall_head?_cons hcomment cs
  | int v => exact forall_head?_cons hdigit cs
  | keywordLet | keywordPrint | identifier => exact forall_head?_cons hword cs

theorem Kind.parted_space (kind : Kind String) (cs : List Char) : kind.Parted (' ' :: cs) :=
  kind.parted_blank (by decide) cs

/-- The tokens spelled one after the other, with a blank after each. -/
def spaced (ks : List (Kind String)) : List Char :=
  ks.flatMap fun kind => kind.text.toList ++ [' ']

/-- Tokens spelled with blanks between them are scanned as they are. -/
theorem scans_spaced {ks : List (Kind String)} (h : ∀ kind ∈ ks, kind.isSpellable = true) :
    Scans .gap (spaced ks) ks := by
  induction ks with
  | nil => exact Scans.nil
  | cons kind ks ih =>
    have hrest := ih fun kind' hkind' => h kind' (List.mem_cons_of_mem _ hkind')
    rw [spaced, List.flatMap_cons, List.append_assoc]
    exact Scans.token (h kind (List.mem_cons_self ..)) (kind.parted_space _) (Scans.space hrest)

/-! ## Tokens in a source -/

theorem Kind.isSpellable_ofWord {x : String} (h : isWord x = true) :
    (Kind.ofWord x).isSpellable = true := by
  by_cases hlet : x = "let"
  · simp [ofWord, hlet, isSpellable]
  · by_cases hprint : x = "print"
    · simp [ofWord, hprint, isSpellable]
    · simp [ofWord, hlet, hprint, isSpellable, isName, h]

theorem Kind.isSpellable_of_ofChar? {c : Char} {kind : Kind String} (h : ofChar? c = some kind) :
    kind.isSpellable = true := by
  unfold ofChar? at h
  split at h <;> cases h <;> rfl

/-- Every view in the journal is a token that can be spelled, and none is the end of the file. -/
def Journal.Spelled (journal : Journal) : Prop :=
  ∀ v, Record.view v ∈ journal → ∃ kind, v.kind = some kind ∧ kind.isSpellable = true

theorem Journal.spelled_append {j k : Journal} (hj : j.Spelled) (hk : k.Spelled) :
    Spelled (j ++ k) := by
  intro v hv
  rcases List.mem_append.1 hv with hv | hv
  · exact hj v hv
  · exact hk v hv

namespace Phase

/-- Whether the token can be spelled of which the phase has read a part. -/
def Spelled : Phase → Prop
  | mark kind _ => kind.isSpellable = true
  | word run => isWord run.text = true
  | gap | slash _ | number .. | lineComment | blockComment .. => True

theorem spelled_complete {phase : Phase} (h : phase.Spelled) : Journal.Spelled phase.complete := by
  intro v hv
  cases phase with
  | gap | lineComment => cases hv
  | mark kind pos =>
    cases List.mem_singleton.1 hv
    exact ⟨kind, rfl, h⟩
  | slash pos =>
    cases List.mem_singleton.1 hv
    exact ⟨.slash, rfl, rfl⟩
  | number run numeral =>
    rw [complete] at hv
    split at hv
    · cases List.mem_singleton.1 hv
      exact ⟨.int numeral.value, rfl, rfl⟩
    · rcases List.mem_cons.1 hv with hv | hv
      · cases hv
      · cases List.mem_singleton.1 hv
        exact ⟨.int numeral.value, rfl, rfl⟩
  | word run =>
    cases List.mem_singleton.1 hv
    exact ⟨Kind.ofWord run.text, rfl, Kind.isSpellable_ofWord h⟩
  | blockComment pos star =>
    cases List.mem_singleton.1 hv

theorem spelled_extend {p : Pos} {g : Glyph} {phase phase' : Phase} (h : phase.Spelled)
    (hextend : phase.extend? p g = some phase') : phase'.Spelled := by
  cases phase with
  | gap | mark => cases hextend
  | slash | lineComment | blockComment =>
    simp only [extend?] at hextend
    split at hextend <;> cases hextend <;> trivial
  | number run numeral =>
    cases g with
    | malformed => cases hextend
    | char c =>
      simp only [extend?] at hextend
      split at hextend <;> cases hextend
      trivial
  | word run =>
    cases g with
    | malformed => cases hextend
    | char c =>
      simp only [extend?] at hextend
      split at hextend
      · next hc =>
        cases hextend
        exact isWord_push h hc
      · cases hextend

theorem spelled_start (p : Pos) (g : Glyph) :
    Journal.Spelled (start p g).1 ∧ (start p g).2.Spelled := by
  constructor
  · intro v hv
    unfold start at hv
    repeat' split at hv
    all_goals simp at hv
  · cases g with
    | malformed => trivial
    | char c =>
      simp only [start]
      split
      · trivial
      · split
        · next kind hkind => exact Kind.isSpellable_of_ofChar? hkind
        · split
          · trivial
          · split
            · trivial
            · split
              · next hc => exact isWord_singleton hc
              · trivial

/-- A step finds only tokens that can be spelled. -/
theorem spelled_step (p : Pos) (g : Glyph) {phase : Phase} (h : phase.Spelled) :
    Journal.Spelled (phase.step p g).1 ∧ (phase.step p g).2.Spelled := by
  unfold step
  split
  · next phase' hextend =>
    refine ⟨?_, spelled_extend h hextend⟩
    intro v hv
    cases hv
  · rcases spelled_start p g with ⟨hjournal, hphase⟩
    exact ⟨Journal.spelled_append (spelled_complete h) hjournal, hphase⟩

end Phase

theorem spelled_arrival (failure : Option String) (p : Pos) (glyphs : List Glyph) :
    Journal.Spelled (arrival failure p glyphs) := by
  intro v hv
  unfold arrival at hv
  repeat' split at hv
  all_goals simp at hv

/-- A scan goes on to the end of the file, which is its last record and no other, and finds only
tokens that can be spelled. -/
theorem scanFrom_spelled (failure : Option String) (p : Pos) {phase : Phase} (h : phase.Spelled)
    (glyphs : List Glyph) :
    ∃ body span, (scanFrom failure p phase #[] glyphs).toList = body ++ [.view (.eof span)] ∧
      Journal.Spelled body := by
  induction glyphs generalizing p phase with
  | nil => exact ⟨phase.complete, .single p, by simp [scanFrom], Phase.spelled_complete h⟩
  | cons g rest ih =>
    rcases Phase.spelled_step p g h with ⟨hjournal, hphase⟩
    rcases ih (p.after g) hphase with ⟨body, span, hscan, hbody⟩
    refine ⟨(phase.step p g).1 ++ arrival failure (p.after g) rest ++ body, span, ?_, ?_⟩
    · rw [scanFrom, scanFrom_acc, hscan]
      simp
    · exact Journal.spelled_append (Journal.spelled_append hjournal
        (spelled_arrival failure (p.after g) rest)) hbody

/-- The records of a text: tokens that can be spelled, and last the end of the file. -/
theorem Text.scan_spelled (text : Text) :
    ∃ body span, text.scan = body ++ [.view (.eof span)] ∧ Journal.Spelled body := by
  have hgap : Phase.Spelled .gap := trivial
  exact scanFrom_spelled text.failure .start hgap text.glyphs

end LetCalc
