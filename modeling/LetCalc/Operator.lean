/-!
# Operators

The signs, the four operations on 64-bit words, and how tightly each binds.  Arithmetic wraps at
`2 ^ 64`, division rounds down, and a division by zero gives zero.
-/

namespace LetCalc

/-! ## Precedence -/

/-- How tightly an expression holds together, from loosest to tightest. -/
inductive Prec where
  /-- Looser than every operator: a whole expression. -/
  | bottom
  /-- Sums and differences. -/
  | additive
  /-- Products and quotients. -/
  | multiplicative
  /-- Signed operands. -/
  | unary
deriving DecidableEq, Repr

namespace Prec

/-- The place of a precedence in the order from loose to tight. -/
def rank : Prec → Nat
  | bottom => 0
  | additive => 1
  | multiplicative => 2
  | unary => 3

/-- `p < q` says that `q` binds tighter. -/
instance : LT Prec := ⟨fun p q => p.rank < q.rank⟩

instance (p q : Prec) : Decidable (p < q) := inferInstanceAs (Decidable (p.rank < q.rank))

theorem lt_def {p q : Prec} : p < q ↔ p.rank < q.rank := Iff.rfl

end Prec

/-! ## Signs -/

/-- A sign in front of an operand. -/
inductive UnOp where
  | plus
  | minus
deriving DecidableEq, Repr

namespace UnOp

/-- How the sign is written. -/
def text : UnOp → String
  | plus => "+"
  | minus => "-"

/-- The value of a signed operand. -/
def apply : UnOp → UInt64 → UInt64
  | plus, x => x
  | minus, x => 0 - x

end UnOp

/-! ## Operations -/

/-- An operation between two operands. -/
inductive BinOp where
  | add
  | sub
  | mul
  | div
deriving DecidableEq, Repr

namespace BinOp

/-- How the operation is written. -/
def text : BinOp → String
  | add => "+"
  | sub => "-"
  | mul => "*"
  | div => "/"

/-- How tightly the operation binds. -/
def prec : BinOp → Prec
  | add | sub => .additive
  | mul | div => .multiplicative

/-- The value of an operation. -/
def apply : BinOp → UInt64 → UInt64 → UInt64
  | add, x, y => x + y
  | sub, x, y => x - y
  | mul, x, y => x * y
  | div, x, y => x / y

@[simp]
theorem div_zero (x : UInt64) : div.apply x 0 = 0 := UInt64.div_zero

end BinOp

end LetCalc
