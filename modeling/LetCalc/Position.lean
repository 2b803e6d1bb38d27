import LetCalc.Text.Path

/-!
# Places in a source

Lines and columns count from one, a column for each glyph, and only a line feed starts a line.  A
span runs from its first to its last glyph.  A location adds the label of the source, which is its
path, or none for the standard input.

Main results:

- Definition `Pos.advance`: the place after a character.
- Definition `Loc.text`: a location as messages show it.
-/

namespace LetCalc

/-! ## Positions -/

/-- A line and a column, both counted from one. -/
structure Pos where
  line : Nat
  col : Nat
deriving DecidableEq, Repr

namespace Pos

/-- The place of the first glyph of a source. -/
def start : Pos := ⟨1, 1⟩

/-- The place one column on. -/
def right (p : Pos) : Pos := ⟨p.line, p.col + 1⟩

/-- The first place of the next line. -/
def newline (p : Pos) : Pos := ⟨p.line + 1, 1⟩

/-- The place after a character that stands at `p`. -/
def advance (p : Pos) (c : Char) : Pos := if c = '\n' then p.newline else p.right

/-- Positions are compared by line and then by column. -/
instance : Ord Pos := ⟨fun p q => (compare p.line q.line).then (compare p.col q.col)⟩

/-- One position precedes another in the source. -/
instance : LT Pos := ⟨fun p q => p.line < q.line ∨ p.line = q.line ∧ p.col < q.col⟩

/-- One position precedes another or is the same. -/
instance : LE Pos := ⟨fun p q => p.line < q.line ∨ p.line = q.line ∧ p.col ≤ q.col⟩

instance (p q : Pos) : Decidable (p < q) :=
  inferInstanceAs (Decidable (p.line < q.line ∨ p.line = q.line ∧ p.col < q.col))

instance (p q : Pos) : Decidable (p ≤ q) :=
  inferInstanceAs (Decidable (p.line < q.line ∨ p.line = q.line ∧ p.col ≤ q.col))

theorem lt_def {p q : Pos} : p < q ↔ p.line < q.line ∨ p.line = q.line ∧ p.col < q.col := Iff.rfl

theorem le_def {p q : Pos} : p ≤ q ↔ p.line < q.line ∨ p.line = q.line ∧ p.col ≤ q.col := Iff.rfl

@[simp]
theorem advance_newline (p : Pos) : p.advance '\n' = p.newline := rfl

/-- Reading a character always moves on. -/
theorem lt_advance (p : Pos) (c : Char) : p < p.advance c := by
  unfold advance
  split
  · exact Or.inl (Nat.lt_succ_self _)
  · exact Or.inr ⟨rfl, Nat.lt_succ_self _⟩

end Pos

/-! ## Spans and locations -/

/-- The place of a piece of a source: its first and its last glyph. -/
structure Span where
  first : Pos
  last : Pos
deriving DecidableEq, Repr

/-- The span of a single glyph. -/
def Span.single (p : Pos) : Span := ⟨p, p⟩

/-- A span in a source that is labelled by its path, or by nothing. -/
structure Loc where
  path : Option String
  span : Span
deriving DecidableEq, Repr

/-- Whether two locations are the same place, however their paths are spelled. -/
def Loc.same (a b : Loc) : Bool := samePath a.path b.path && a.span = b.span

/-- A location as messages show it: the label, then line and column of its first glyph. -/
def Loc.text (loc : Loc) : String :=
  loc.path.getD "<stdin>" ++ ":" ++ loc.span.first.line.repr ++ ":" ++ loc.span.first.col.repr

end LetCalc
