import LetCalc.Proofs.Program.Source
import LetCalc.Proofs.Token.Places
import Mathlib.Data.List.Infix

/-!
# Layout

Blanks and comments mean nothing: a line comment runs through the end of its line, and a block
comment to the first pair of characters that can close it, whatever else stands in it.  Tokens that
are written down with blanks behind them, and with any such fillers besides, are lexed as they are.

Main results:

- Definitions `Filler` and `Separator`: what may stand between tokens, and what parts them.
- Theorem `Scans.fillers`: fillers in front of a text change nothing in its scan.
- Theorem `scans_laidOut`: tokens with separators behind them are scanned as they are.
- Theorem `Context.lex_laidOut`: the calls up to the end of the file hand these tokens out.
-/

namespace LetCalc

/-! ## What may stand between tokens -/

/-- What may stand between tokens: a blank, a comment that ends with its line, or a comment between
its two marks. -/
inductive Filler where
  | blank (c : Char) (isBlank : isBlank c = true)
  | lineComment (body : List Char) (oneLine : '\n' ∉ body)
  | blockComment (body : List Char) (isOpen : ¬ ['*', '/'] <:+: body)

/-- How a filler is written. -/
def Filler.text : Filler → List Char
  | blank c _ => [c]
  | lineComment body _ => '/' :: '/' :: (body ++ ['\n'])
  | blockComment body _ => '/' :: '*' :: (body ++ ['*', '/'])

/-- What parts two tokens: a blank, and any fillers behind it. -/
structure Separator where
  first : Char
  isBlank : isBlank first = true
  more : List Filler

/-- The fillers of a separator, the blank first. -/
def Separator.fillers (s : Separator) : List Filler := .blank s.first s.isBlank :: s.more

/-- How fillers are written one after the other. -/
def Filler.texts (fs : List Filler) : List Char := fs.flatMap Filler.text

/-- Tokens written down one after the other, each with its separator behind it. -/
def laidOut (items : List (Kind String × Separator)) : List Char :=
  items.flatMap fun item => item.1.text.toList ++ Filler.texts item.2.fillers

/-! ## Fillers are passed over -/

namespace Scans

variable {c : Char} {cs body : List Char} {ks : List (Kind String)}

private theorem lineCommentFrom (hbody : '\n' ∉ body) (h : Scans .gap cs ks) :
    Scans .lineComment (body ++ '\n' :: cs) ks := by
  induction body with
  | nil =>
    intro p
    have hfeed : ∀ g ∈ (('\n' :: cs).map Glyph.char).head?,
        Phase.extend? p g .lineComment = none := by
      intro g hg
      cases hg
      rfl
    have hcomplete := scanFrom_complete none p hfeed
    rw [List.nil_append, hcomplete]
    exact blank (by decide) h p
  | cons c body ih =>
    have hc : c ≠ '\n' := fun hc => hbody (hc ▸ List.mem_cons_self ..)
    have hrest : '\n' ∉ body := fun hmem => hbody (List.mem_cons_of_mem _ hmem)
    exact extend fun p => ⟨.lineComment, by simp [Phase.extend?, hc], ih hrest⟩

private theorem blockCommentFrom (pos : Pos) (star : Bool) (hbody : ¬ ['*', '/'] <:+: body)
    (hstar : star = true → body.head? ≠ some '/') (h : Scans .gap cs ks) :
    Scans (.blockComment pos star) (body ++ '*' :: '/' :: cs) ks := by
  induction body generalizing star with
  | nil =>
    have hclose : Scans (.blockComment pos true) ('/' :: cs) ks :=
      extend fun p => ⟨.gap, rfl, h⟩
    exact extend fun p => ⟨.blockComment pos true, by simp [Phase.extend?], hclose⟩
  | cons c body ih =>
    have hstay : star = true → c ≠ '/' := fun htrue => by simpa using hstar htrue
    have hrest : ¬ ['*', '/'] <:+: body :=
      fun hin => hbody (hin.trans (List.suffix_cons c body).isInfix)
    -- A star closes the comment only together with the character behind it.
    have hnext : decide (Glyph.char c = .char '*') = true → body.head? ≠ some '/' := by
      intro hc hslash
      rcases List.head?_eq_some_iff.1 hslash with ⟨tail, rfl⟩
      obtain rfl : c = '*' := by simpa using hc
      exact hbody ⟨[], tail, rfl⟩
    exact extend fun p => ⟨_, by simpa [Phase.extend?] using hstay, ih _ hrest hnext⟩

/-- A filler in front of a text changes nothing in its scan. -/
theorem filler (f : Filler) (h : Scans .gap cs ks) : Scans .gap (f.text ++ cs) ks := by
  cases f with
  | blank c hc => exact blank hc h
  | lineComment body hbody =>
    have hcomment : Scans .lineComment ((body ++ ['\n']) ++ cs) ks := by
      simpa using lineCommentFrom hbody h
    exact start fun p => ⟨.slash p, rfl, extend fun q => ⟨.lineComment, rfl, hcomment⟩⟩
  | blockComment body hbody =>
    have hcomment : ∀ pos, Scans (.blockComment pos false) ((body ++ ['*', '/']) ++ cs) ks := by
      intro pos
      simpa using blockCommentFrom pos false hbody nofun h
    exact start fun p => ⟨.slash p, rfl, extend fun q => ⟨.blockComment p false, rfl, hcomment p⟩⟩

/-- Fillers in front of a text change nothing in its scan. -/
theorem fillers (fs : List Filler) (h : Scans .gap cs ks) :
    Scans .gap (Filler.texts fs ++ cs) ks := by
  induction fs with
  | nil => exact h
  | cons f fs ih =>
    rw [Filler.texts, List.flatMap_cons, List.append_assoc]
    exact filler f ih

end Scans

/-! ## Tokens with separators behind them -/

/-- Tokens with separators behind them are scanned as they are. -/
theorem scans_laidOut {items : List (Kind String × Separator)}
    (h : ∀ item ∈ items, item.1.isSpellable = true) :
    Scans .gap (laidOut items) (items.map Prod.fst) := by
  induction items with
  | nil => exact Scans.nil
  | cons item items ih =>
    have hrest := ih fun item' hitem' => h item' (List.mem_cons_of_mem _ hitem')
    rw [laidOut, List.flatMap_cons, List.append_assoc]
    exact Scans.token (h item (List.mem_cons_self ..)) (item.1.parted_blank item.2.isBlank _)
      (Scans.fillers item.2.fillers hrest)

namespace Context

/-- Layout does not matter.  Whatever fillers stand in front of the first token, such as those of a
separator, and whatever separators behind each token, the calls up to the first end of the file hand
out the tokens that were written down, and nothing is reported. -/
theorem lex_laidOut (ctx : Context) (path : Option String) (before : List Filler)
    {items : List (Kind String × Separator)} (h : ∀ item ∈ items, item.1.isSpellable = true) :
    let text := String.ofList (Filler.texts before ++ laidOut items)
    let opened := ctx.openLexer path (.ofString text)
    let run := opened.context.lexMany opened.value (items.length + 1)
    run.1.map (View.kind ∘ View.map Symbol.name) = items.map (fun item => some item.1) ++ [none] ∧
      run.2.diagnostics = ctx.diagnostics := by
  intro text opened run
  have hscans : Scans .gap text.toList (items.map Prod.fst) := by
    rw [String.toList_ofList]
    exact Scans.fillers before (scans_laidOut h)
  rcases Input.tokens_ofString hscans with ⟨hkinds, hfindings⟩
  rw [Input.tokens, Tokens.kinds, Text.tokens_scan] at hkinds
  have hlength : (Piece.journal .start (pieces (Input.ofString text).text.glyphs)).tokens.length
      = items.length := by
    simpa using congrArg List.length hkinds
  rcases ctx.lexMany_text path (.ofString text) hlength with ⟨hviews, hdiagnostics⟩
  constructor
  · calc run.1.map (View.kind ∘ View.map Symbol.name)
        = (run.1.map (View.map Symbol.name)).map View.kind := List.map_map.symm
      _ = (((Piece.journal .start (pieces (Input.ofString text).text.glyphs)).tokens.map
            Token.kind).map some) ++ [none] := by
          rw [hviews, List.map_append, List.map_map, List.map_map]
          rfl
      _ = items.map (fun item => some item.1) ++ [none] := by
          rw [hkinds, List.map_map]
          rfl
  · have hnothing : (Input.ofString text).text.opening.findings
        ++ (Input.ofString text).text.scan.findings = [] := hfindings
    apply Array.toList_inj.1
    rw [hdiagnostics, hnothing, List.map_nil, List.append_nil]

/-- A slash, the largest number and a name, between comments that hold quotes, keywords and the
marks of other comments. -/
theorem lex_laidOut_comments :
    let apart : Separator := ⟨'\u3000', by decide,
      [.blockComment "/let \"\n* //*".toList (by decide),
        .lineComment "/* */ print".toList (by decide)]⟩
    let items := [(.slash, apart), (.int 18446744073709551615, apart), (.identifier "été", apart)]
    (∀ item ∈ items, item.1.isSpellable = true) ∧
      let text := String.ofList (Filler.texts apart.fillers ++ laidOut items)
      let opened := (empty 0).openLexer none (.ofString text)
      let run := opened.context.lexMany opened.value 4
      run.1.map (View.kind ∘ View.map Symbol.name)
          = [some .slash, some (.int 18446744073709551615), some (.identifier "été"), none] ∧
        run.2.diagnostics = #[] := by
  intro apart items
  have hspellable : ∀ item ∈ items, item.1.isSpellable = true := by
    intro item hitem
    simp only [items, List.mem_cons, List.not_mem_nil, or_false] at hitem
    rcases hitem with rfl | rfl | rfl
    · rfl
    · rfl
    · decide +kernel
  exact ⟨hspellable, lex_laidOut (empty 0) none apart.fillers hspellable⟩

end Context

end LetCalc
