/-
  JointProb — association of an exposure and an outcome.

  * `TwoByTwo` has the joint probabilities of the four cases;
  * `oddsRatio` and `relativeRisk` are measures on it, undefined where a
    denominator is zero.
-/
import JointProb.Scalar.Basic

namespace JointProb

variable {α : Type} [Scalar α]

/-- A measure of association. -/
inductive Association (α : Type) where
  | value (x : α)
  | undefined
deriving DecidableEq, Repr

/-- A quotient, undefined if the denominator is zero. -/
def Association.ratio (num den : α) : Association α :=
  if den == 0 then .undefined else .value (num / den)

/-- The printed form of a measure. -/
def Association.text [DecimalText α] : Association α → String
  | .value x => DecimalText.shortest x
  | .undefined => "Undefined"

/-- The joint probabilities of an exposure and an outcome. -/
structure TwoByTwo (α : Type) where
  both : α
  exposureOnly : α
  outcomeOnly : α
  neither : α

namespace TwoByTwo

variable (t : TwoByTwo α)

/-- The odds of the outcome under exposure over those without. -/
def oddsRatio : Association α := .ratio (t.both * t.neither) (t.exposureOnly * t.outcomeOnly)

/-- The risk of the outcome under exposure over the risk without. -/
def relativeRisk : Association α :=
  match Association.ratio t.both (t.both + t.exposureOnly) with
  | .undefined => .undefined
  | .value exposed =>
    match Association.ratio t.outcomeOnly (t.outcomeOnly + t.neither) with
    | .undefined => .undefined
    | .value baseline => .ratio exposed baseline

end TwoByTwo

end JointProb
