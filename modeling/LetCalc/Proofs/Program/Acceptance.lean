import LetCalc.Proofs.Program.Recognition
import LetCalc.Proofs.Program.Source

/-!
# Accepted sources

A source in which the scanner finds nothing is accepted exactly if the grammar derives it, as long
as no expression in it is too deep, and the program that it is parsed as is the tree of the
derivation.

Main results:

- Theorem `Context.accepts_exactly_grammar`: the parser and the grammar agree.
-/

namespace LetCalc

open Grammar

namespace Context

variable (ctx : Context) (path : Option String) (input : Input)

/-- What the reader finds is reported. -/
theorem tooDeep_reported (h : Parse.TooDeep (Parse.stmts input.text.eof input.tokens).findings) :
    ∃ d ∈ ctx.reported path input, d.problem = .tooDeep := by
  rcases h with ⟨f, hf, hproblem⟩
  exact ⟨f.diagnostic path, ctx.mem_reported path input (List.mem_append_right _ hf), hproblem⟩

/-- A source that is parsed without a report is derived as the program that it is parsed as. -/
theorem derived_of_reported_eq_nil (h : ctx.reported path input = []) :
    Nonempty (ProgramDerivation input.tokens.kinds
      ((ctx.parse path input).value.map Symbol.name).trees) := by
  rw [trees_parse]
  exact Parse.stmts_sound _ _ ((ctx.reported_eq_nil_iff path input).1 h).2

/-- There is one tree for a source that is parsed without a report. -/
theorem trees_eq_of_derivation {trees : List (StmtTree String)}
    (d : ProgramDerivation input.tokens.kinds trees) (h : ctx.reported path input = []) :
    ((ctx.parse path input).value.map Symbol.name).trees = trees := by
  have hclean := ((ctx.reported_eq_nil_iff path input).1 h).2
  have hroom := (Parse.stmts_clean_iff input.text.eof d rfl).1 hclean
  rw [trees_parse]
  exact (Parse.stmts_of_demands_le input.text.eof d rfl hroom).2

/-- The tokens of a derivation that is not too deep can be written down as a source, which is parsed
without a report as the tree of the derivation. -/
theorem parse_spaced {ks : List (Kind String)} {trees : List (StmtTree String)}
    (d : ProgramDerivation ks trees) (hspell : ∀ kind ∈ ks, kind.isSpellable = true)
    (hroom : ∀ n ∈ d.demands, n ≤ Parse.maxDepth) {s : String} (hs : s.toList = spaced ks) :
    (Input.ofString s).scanFindings = [] ∧ (Input.ofString s).tokens.kinds = ks ∧
      ctx.reported path (Input.ofString s) = [] ∧
      ((ctx.parse path (Input.ofString s)).value.map Symbol.name).trees = trees := by
  rcases Input.tokens_ofString (hs ▸ scans_spaced hspell) with ⟨htokens, hscan⟩
  have hread := (Parse.stmts_clean_iff (Input.ofString s).text.eof d htokens).2 hroom
  have hclean := (ctx.reported_eq_nil_iff path _).2 ⟨hscan, hread⟩
  exact ⟨hscan, htokens, hclean, ctx.trees_eq_of_derivation path _ (htokens ▸ d) hclean⟩

/-- The parser and the grammar agree on a source in which the scanner finds nothing: a program that
is parsed without a report is the one tree that the grammar derives, and a derived source is parsed
without a report unless it is too deep. -/
theorem accepts_exactly_grammar (hscan : input.scanFindings = []) :
    (ctx.reported path input = [] →
      ∀ trees, Nonempty (ProgramDerivation input.tokens.kinds trees) ↔
        trees = ((ctx.parse path input).value.map Symbol.name).trees) ∧
    ((∃ trees, Nonempty (ProgramDerivation input.tokens.kinds trees)) →
      (∀ d ∈ ctx.reported path input, d.problem ≠ .tooDeep) → ctx.reported path input = []) := by
  constructor
  · intro hclean trees
    constructor
    · rintro ⟨d⟩
      exact (ctx.trees_eq_of_derivation path input d hclean).symm
    · intro htrees
      rw [htrees]
      exact ctx.derived_of_reported_eq_nil path input hclean
  · rintro ⟨trees, ⟨d⟩⟩ hshallow
    have hroom : ∀ n ∈ d.demands, n ≤ Parse.maxDepth := by
      intro n hn
      apply Nat.le_of_not_lt
      intro hlt
      have hdeep := Parse.tooDeep_of_lt_demand input.text.eof d rfl ⟨n, hn, hlt⟩
      rcases ctx.tooDeep_reported path input hdeep with ⟨diagnostic, hmem, hproblem⟩
      exact hshallow diagnostic hmem hproblem
    have hread := (Parse.stmts_clean_iff input.text.eof d rfl).2 hroom
    exact (ctx.reported_eq_nil_iff path input).2 ⟨hscan, hread⟩

end Context

/-- A derivation of `print - x * ( 2 + 3 ) ;`. -/
def signedProduct : ProgramDerivation
    [.keywordPrint, .minus, .identifier "x", .star, .leftParen, .int 2, .plus, .int 3, .rightParen,
      .semicolon]
    [.print (.binary .mul (.unary .minus (.var "x")) (.binary .add (.lit 2) (.lit 3)))] :=
  .cons (.print (.ofTerm (.mul (.ofUnary (.minus (.ofPrimary (.name "x"))))
    (.ofPrimary (.group (.add (.ofTerm (.ofUnary (.ofPrimary (.int 2))))
      (.ofUnary (.ofPrimary (.int 3)))))))))
    .nil

/-- A sign holds its operand tighter than a product does, and a group leaves no trace. -/
theorem accepts_signedProduct :
    (Input.ofString "print - x * ( 2 + 3 ) ; ").scanFindings = [] ∧
      (Context.empty 0).reported none (Input.ofString "print - x * ( 2 + 3 ) ; ") = [] ∧
      (((Context.empty 0).parse none (Input.ofString "print - x * ( 2 + 3 ) ; ")).value.map
          Symbol.name).trees
        = [.print (.binary .mul (.unary .minus (.var "x")) (.binary .add (.lit 2) (.lit 3)))] := by
  have htext : "print - x * ( 2 + 3 ) ; ".toList = spaced [.keywordPrint, .minus,
      .identifier "x", .star, .leftParen, .int 2, .plus, .int 3, .rightParen, .semicolon] := by
    decide
  rcases (Context.empty 0).parse_spaced none signedProduct (by decide) (by decide) htext
    with ⟨hscan, htokens, hclean, -⟩
  have haccepts := ((Context.empty 0).accepts_exactly_grammar none _ hscan).1 hclean
  refine ⟨hscan, hclean, ((haccepts _).1 ?_).symm⟩
  rw [htokens]
  exact ⟨signedProduct⟩

end LetCalc
