/-
  JointProb — statistics of a distribution.

  * `entropy`, `conditionalEntropy` and `mutualInformation` measure
    information, in a given base;
  * `twoByTwo` has the joint probabilities of two binary variables, from which
    `oddsRatio` and `relativeRisk` are computed.
-/
import JointProb.Association
import JointProb.Information
import JointProb.Marginal
import JointProb.Settings.Basic

namespace JointProb.Distribution

variable {α : Type} [Scalar α] (d : Distribution α)

/-! ## Information -/

section
variable [NaturalLog α]

/-- The probabilities of the assignments to variables, or to all of them. -/
def probsOf : Option (List Nat) → Except (StatsError α) (List α)
  | none => .ok d.probs
  | some vars => (d.marginal vars).map Marginal.probs

/-- The entropy of variables, or of all of them together. -/
def entropy (base : α) (vars : Option (List Nat)) : Except (StatsError α) α :=
  if Information.validBase base then (d.probsOf vars).map (Information.entropy base)
  else .error (.invalidBase base)

/-- The entropy of targets and givens together less that of the givens. -/
def conditionalEntropy (base : α) (targets givens : List Nat) : Except (StatsError α) α := do
  let joint ← d.entropy base (some (targets ++ givens))
  let given ← d.entropy base (some givens)
  .ok (joint - given)

/-- The information that two lists of variables share.  It is never negative
    but for rounding, which a tolerance limits. -/
def mutualInformation (tolerance base : α) (a b : List Nat) : Except (StatsError α) α := do
  let left ← d.entropy base (some a)
  let right ← d.entropy base (some b)
  let joint ← d.entropy base (some (a ++ b))
  let value := left + right - joint
  if value < -tolerance then .error (.negativeInformation value tolerance) else .ok value

end

/-! ## Association -/

/-- The true and the false state of a variable with two states; the second
    and the first if the labels do not tell. -/
def binaryStates (var : Nat) : Except (StatsError α) DefaultStates :=
  match d.catalog.vars[var]? with
  | none => .error (.variableOutOfRange var d.catalog.vars.length)
  | some v =>
    if v.isBinary then .ok (v.defaults?.getD ⟨0, 1⟩)
    else .error (.notBinary v.name v.cardinality)

/-- The joint probabilities of an exposure and an outcome. -/
def twoByTwo (exposure outcome : Nat) : Except (StatsError α) (TwoByTwo α) := do
  d.checkVariables [exposure, outcome]
  let e ← d.binaryStates exposure
  let o ← d.binaryStates outcome
  let cell (x y : Nat) : α := d.mass [⟨exposure, x⟩, ⟨outcome, y⟩]
  .ok {
    both := cell e.trueState o.trueState
    exposureOnly := cell e.trueState o.falseState
    outcomeOnly := cell e.falseState o.trueState
    neither := cell e.falseState o.falseState }

/-- The odds ratio of an exposure and an outcome. -/
def oddsRatio (exposure outcome : Nat) : Except (StatsError α) (Association α) :=
  (d.twoByTwo exposure outcome).map TwoByTwo.oddsRatio

/-- The relative risk of an exposure and an outcome. -/
def relativeRisk (exposure outcome : Nat) : Except (StatsError α) (Association α) :=
  (d.twoByTwo exposure outcome).map TwoByTwo.relativeRisk

end JointProb.Distribution
