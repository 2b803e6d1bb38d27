/-!
# Paths

Two spellings of a path name the same place when they go through the same steps: repeated and
trailing slashes count for nothing, nor does a dot as a step, unless the path begins with it.

Main results:

- Theorem `samePath_iff`: the same place is named exactly by the same steps.
-/

namespace LetCalc

/-- The pieces of a path between slashes, which may be empty. -/
def pathPieces : List Char → List (List Char)
  | [] => [[]]
  | c :: rest =>
    match c, pathPieces rest with
    | '/', pieces => [] :: pieces
    | c, piece :: pieces => (c :: piece) :: pieces
    | c, [] => [[c]]

/-- The steps of a path.  A leading slash is a step of its own, and so is a leading dot. -/
def pathSteps (path : String) : List (List Char) :=
  let pieces := pathPieces path.toList
  let steps := pieces.filter fun piece => piece ≠ [] && piece ≠ ['.']
  match pieces with
  | [] :: _ :: _ => ['/'] :: steps
  | ['.'] :: _ => ['.'] :: steps
  | _ => steps

/-- Whether two labels are the same: both absent, or paths with the same steps. -/
def samePath (a b : Option String) : Bool := a.map pathSteps = b.map pathSteps

theorem samePath_iff (a b : Option String) :
    samePath a b = true ↔ a.map pathSteps = b.map pathSteps := decide_eq_true_iff

@[simp]
theorem samePath_self (a : Option String) : samePath a a = true := (samePath_iff a a).2 rfl

end LetCalc
