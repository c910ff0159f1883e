/-
  JointProb — from specifications to distributions.

  * `Distribution.ofText` reads a text in either format.
-/
import JointProb.Spec.Format
import JointProb.Spec.Network
import JointProb.Spec.Table

namespace JointProb

variable {α : Type} [Scalar α]

/-- The distribution that a text in a format describes, perhaps with other
    names. -/
def Distribution.ofText (settings : Settings α) (names : Option (List String)) :
    Format → String → Except (SpecError α) (Distribution α)
  | .table, text => ofTable settings names text
  | .network, text => ofNetwork settings names text

end JointProb
