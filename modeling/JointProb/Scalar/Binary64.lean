/-
  JointProb — binary64 floating point as scalars.

  Arithmetic and comparison are the machine's.  The printed forms are
  computed exactly from the bits: a finite number is `± m · 2^q`.

  * `Binary64.Dyadic` is that decoding, `Dyadic.ofFloat?` computes it;
  * `Dyadic.neighbourhood` is the range of reals that round to the number;
  * `Binary64.read?` reads a literal, also an infinite one.
-/
import JointProb.Scalar.Basic
import JointProb.Decimal.Shortest

namespace JointProb.Binary64

/-! ## The exact value of a finite number -/

/-- The number `± significand · 2^exponent`; `boundary` marks a power of two,
    whose lower neighbour is only half a step away. -/
structure Dyadic where
  negative : Bool
  significand : Nat
  exponent : Int
  boundary : Bool
deriving Repr

namespace Dyadic

/-- The leading bit of a significand, which is not stored. -/
def leadingBit : Nat := Nat.pow 2 52

/-- The value of a number, unless it is infinite or not a number. -/
def ofFloat? (x : Float) : Option Dyadic :=
  let bits := x.toBits.toNat
  let negative := bits / Nat.pow 2 63 == 1
  let biased : Nat := bits / leadingBit % Nat.pow 2 11
  let fraction : Nat := bits % leadingBit
  if biased = 2047 then none
  else if biased = 0 then some ⟨negative, fraction, -1074, false⟩
  else some ⟨negative, leadingBit + fraction, biased - 1075, fraction == 0 && 1 < biased⟩

variable (d : Dyadic)

/-- The magnitude of the number as a numerator and a denominator. -/
def fraction : Nat × Nat :=
  (d.significand * Nat.pow 2 d.exponent.toNat, Nat.pow 2 (-d.exponent).toNat)

/-- The numbers that round to this one: half a step up, half a step down, at a
    power of two a quarter down; the ends round to the even significand. -/
def neighbourhood : Decimal.Neighbourhood :=
  let up := Nat.pow 2 (d.exponent - 2).toNat
  { low := (4 * d.significand - if d.boundary then 1 else 2) * up
    value := 4 * d.significand * up
    high := (4 * d.significand + 2) * up
    unit := Nat.pow 2 (2 - d.exponent).toNat
    closed := d.significand % 2 == 0 }

/-- The shortest decimal that reads back as the number. -/
def shortest : String :=
  if d.significand = 0 then Decimal.signed d.negative ['0']
  else
    let (digits, exponent) := d.neighbourhood.shortest
    Decimal.positional d.negative digits exponent

/-- The number rounded to a number of places. -/
def fixed (places : Nat) : String :=
  Decimal.fixed places d.negative d.fraction.1 d.fraction.2

end Dyadic

/-! ## Printed forms -/

/-- The words for numbers that have no digits. -/
def wordOf (x : Float) : String :=
  if x.isNaN then "NaN" else if x < 0 then "-inf" else "inf"

/-- The shortest decimal that reads back as the number, or its word. -/
def shortest (x : Float) : String :=
  match Dyadic.ofFloat? x with
  | some d => d.shortest
  | none => wordOf x

/-- The number rounded to a number of places, or its word. -/
def fixed (places : Nat) (x : Float) : String :=
  match Dyadic.ofFloat? x with
  | some d => d.fixed places
  | none => wordOf x

end Binary64

/-! ## Instances -/

instance : Scalar Float where
  zero := 0.0
  one := 1.0
  decLe := inferInstance
  decLt := inferInstance
  isFinite := Float.isFinite

instance : NaturalLog Float := ⟨Float.log⟩

instance : DecimalText Float := ⟨Binary64.shortest, Binary64.fixed⟩

/-- The number that a text denotes, infinite ones included. -/
def Binary64.read? (cs : List Char) : Option Float :=
  (Decimal.Literal.read? cs).map fun
    | .infinite negative => if negative then -(1.0 / 0.0) else 1.0 / 0.0
    | .notANumber => 0.0 / 0.0
    | l@(.finite ..) => (Scalar.ofLiteral? l).getD 0

end JointProb
