/-
  JointProb — writing distributions as tables of joint probabilities.

  * `Distribution.serialize` writes the header and a line for each assignment,
    the probabilities with ten places.
-/
import JointProb.Decimal.Fixed
import JointProb.Distribution

namespace JointProb

variable {α : Type} [DecimalText α]

/-- The places of written probabilities. -/
def writtenPlaces : Nat := 10

/-- The line of an assignment: its number in binary, a digit for each
    variable, and its probability. -/
def writtenEntry (width linear : Nat) (p : α) : String :=
  String.ofList (Decimal.padded 2 width linear) ++ ": " ++ DecimalText.fixed writtenPlaces p ++ "\n"

/-- The text of a distribution whose variables all have the states `0` and
    `1`. -/
def Distribution.serialize (d : Distribution α) : Except (SpecError α) String :=
  match d.catalog.vars.find? fun v => !v.isBoolean with
  | some v => .error (.notBoolean v.name)
  | none =>
    let width := d.catalog.vars.length
    .ok <| "variables: " ++ ",".intercalate d.catalog.names ++ "\n" ++
      String.join (d.probs.mapIdx fun linear p => writtenEntry width linear p)

end JointProb
