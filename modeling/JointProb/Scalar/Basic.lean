/-
  JointProb — the numbers that probabilities are computed with.

  The library computes with whatever has the four operations, an order and a
  notion of being finite: binary floating point when it runs, exact numbers
  when one reasons about it.  No law is assumed.

  * `Scalar` has the arithmetic, `NaturalLog` the logarithm, `DecimalText` the
    printed forms;
  * `Scalar.ofLiteral?` is the value of a decimal literal.
-/
import JointProb.Decimal.Literal

namespace JointProb

/-- Numbers for probabilities.  Comparisons may all fail, as with a value
    that is not a number. -/
class Scalar (α : Type) extends Zero α, One α, Add α, Sub α, Mul α, Div α, Neg α,
    LE α, LT α, BEq α, OfScientific α where
  decLe : DecidableLE α
  decLt : DecidableLT α
  isFinite : α → Bool

/-- Numbers with a natural logarithm. -/
class NaturalLog (α : Type) where
  log : α → α

/-- Numbers with printed forms: the shortest decimal that reads back, and one
    with a set number of places. -/
class DecimalText (α : Type) where
  shortest : α → String
  fixed : Nat → α → String

namespace Scalar

variable {α : Type} [Scalar α]

instance (x y : α) : Decidable (x ≤ y) := Scalar.decLe x y

instance (x y : α) : Decidable (x < y) := Scalar.decLt x y

/-- The magnitude of a number. -/
def abs (x : α) : α := if x < 0 then -x else x

/-- A number, or zero where it is not positive. -/
def positivePart (x : α) : α := if 0 < x then x else 0

/-- The number nearest to a finite literal. -/
def ofLiteral? : Decimal.Literal → Option α
  | .finite negative digits exponent =>
    let x : α := OfScientific.ofScientific digits (exponent < 0) exponent.natAbs
    some (if negative then -x else x)
  | .infinite _ | .notANumber => none

end Scalar

end JointProb
