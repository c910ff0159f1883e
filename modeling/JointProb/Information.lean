/-
  JointProb — the information content of a list of probabilities.

  * `validBase` says which bases a logarithm may have;
  * `surprise b p` is `p · log_b p`, and zero where `p` is not positive;
  * `entropy b ps` is `- Σ p · log_b p`.
-/
import JointProb.Weights

namespace JointProb.Information

variable {α : Type} [Scalar α] [NaturalLog α]

/-- Whether logarithms to a base make sense. -/
def validBase (base : α) : Bool := Scalar.isFinite base && decide (0 < base) && base != 1

/-- The term `p · log_base p` of an entropy; zero for an impossible event. -/
def surprise (base p : α) : α :=
  if p ≤ 0 then 0 else p * NaturalLog.log p / NaturalLog.log base

/-- The entropy of probabilities.  A zero has no sign. -/
def entropy (base : α) (ps : List α) : α :=
  let h := -Weights.compensatedSum (ps.map (surprise base))
  if h == 0 then 0 else h

/-- The entropy of probabilities, if the base makes sense. -/
def entropy? (base : α) (ps : List α) : Option α :=
  if validBase base then some (entropy base ps) else none

end JointProb.Information
