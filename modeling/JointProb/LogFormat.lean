/-
  JointProb — the formats of log lines.

  * `LogFormat.read` finds a format by its name.
-/
import JointProb.Text.Cut

namespace JointProb

/-- A format of log lines. -/
inductive LogFormat where
  | human
  | json
deriving DecidableEq, Repr

/-- The fault of a name that no format has. -/
structure UnknownLogFormat where
  name : String
deriving DecidableEq, Repr

/-- The wording of the fault. -/
def UnknownLogFormat.message (e : UnknownLogFormat) : String :=
  s!"unknown log format '{e.name}' (expected 'human' or 'json')"

/-- The format with a name, in any case of its letters. -/
def LogFormat.read (name : String) : Except UnknownLogFormat LogFormat :=
  let word := name.toList.map Char.toLower
  if word = "human".toList ∨ word = "text".toList then .ok .human
  else if word = "json".toList then .ok .json
  else .error ⟨name⟩

end JointProb
