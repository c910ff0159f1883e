/-
  JointProb — the shortest decimal that reads back as a given number.

  A number of a finite format stands for all the reals that round to it.
  Among the decimals in that range the ones with the coarsest last place are
  the shortest, and the nearest of those is the one to print.

  * `Neighbourhood` is a positive number with the range that rounds to it;
  * `Neighbourhood.onGrid? x` is the best multiple of `10^x` in the range;
  * `Neighbourhood.shortest` takes the coarsest grid that has one.
-/
import JointProb.Decimal.Fixed

namespace JointProb.Decimal

/-- The positive number `value / unit` and the numbers that round to it: those
    from `low / unit` to `high / unit`, ends included iff `closed`. -/
structure Neighbourhood where
  low : Nat
  value : Nat
  high : Nat
  unit : Nat
  closed : Bool
deriving Repr

namespace Neighbourhood

variable (v : Neighbourhood)

/-- Whether the multiple `n` of the unit rounds to the number. -/
def holds (n : Nat) : Bool :=
  if v.closed then v.low ≤ n && n ≤ v.high else v.low < n && n < v.high

/-- The same numbers as multiples of `10^x / up`, for the factor `up` that
    makes this whole: `unit` then counts how many of them make `10^x`. -/
def scale (x : Int) : Neighbourhood :=
  let up := tenPow (-x).toNat
  { v with
    low := v.low * up, value := v.value * up, high := v.high * up
    unit := v.unit * tenPow x.toNat }

/-- The multiple of `10^x` to print, if one is in the range: of the two next
    to the number the nearer one, and the upper one if both are equally
    near. -/
def onGrid? (x : Int) : Option Nat :=
  let w := v.scale x
  let below := w.value / w.unit
  let above := below + 1
  match w.holds (below * w.unit), w.holds (above * w.unit) with
  | true, true =>
    some (if w.value - below * w.unit < above * w.unit - w.value then below else above)
  | true, false => some below
  | false, true => some above
  | false, false => none

/-- A power of ten not below the number. -/
def magnitude : Int :=
  if v.unit ≤ v.value then (Nat.toDigits 10 (v.value / v.unit)).length
  else 1 - (Nat.toDigits 10 (v.unit / v.value)).length

/-- The best decimal on one of the `n` grids from `10^x` downwards; on the
    grid after them the one just below the number. -/
def search : Nat → Int → Nat × Int
  | 0, x => let w := v.scale x; (w.value / w.unit, x)
  | n + 1, x =>
    match v.onGrid? x with
    | some d => (d, x)
    | none => search n (x - 1)

/-- The shortest decimal in the range, as digits and a power of ten.
    Seventeen digits tell all numbers of a binary format with 53 bits apart,
    so the search ends at a hit. -/
def shortest : Nat × Int := v.search 19 v.magnitude

end Neighbourhood

/-- The number `± digits · 10^exponent` without an exponent. -/
def positional (negative : Bool) (digits : Nat) (exponent : Int) : String :=
  if 0 ≤ exponent then
    signed negative (Nat.toDigits 10 (digits * tenPow exponent.toNat))
  else signed negative (withPoint (-exponent).toNat digits)

end JointProb.Decimal
