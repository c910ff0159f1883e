/-
  JointProb — settings in JSON.

  * `Settings.ofJson?` reads settings; each field may be left out, which gives
    its default, and fields of other names do not count.
-/
import JointProb.Json.Reader
import JointProb.Settings.Basic

namespace JointProb

variable {α : Type} [Scalar α]

/-! ## Fields -/

namespace Json.Value

/-- The number that a value denotes. -/
def amount? : Value → Option α
  | number n => n.value?
  | _ => none

/-- The natural number that a value denotes. -/
def count? : Value → Option Nat
  | number n => n.natural?
  | _ => none

/-- The text that a value denotes; none for null. -/
def remark? : Value → Option (Option String)
  | null => some none
  | string s => (Piece.text? s).map fun cs => some (String.ofList cs)
  | _ => none

end Json.Value

/-- A field that has a default. -/
def fieldOr {β : Type} (default : β) (read : Json.Value → Option β) (v : Option Json.Value) :
    Option β :=
  v.elim (some default) read

/-! ## Settings -/

/-- Tolerances from a value. -/
def Tolerances.ofValue? (v : Json.Value) : Option (Tolerances α) := do
  let field ← v.record? ["sum", "normalization_band", "independence", "mutual_information"]
  let amount (default : α) (name : String) := fieldOr default Json.Value.amount? (field name)
  let d : Tolerances α := .default
  return {
    sum := ← amount d.sum "sum"
    normalizationBand := ← amount d.normalizationBand "normalization_band"
    independence := ← amount d.independence "independence"
    mutualInformation := ← amount d.mutualInformation "mutual_information" }

/-- Settings from a value. -/
def Settings.ofValue? (v : Json.Value) : Option (Settings α) := do
  let field ← v.record? ["tolerances", "default_entropy_base", "max_assignment_space", "_comment"]
  let d : Settings α := .default
  return {
    tolerances := ← fieldOr d.tolerances Tolerances.ofValue? (field "tolerances")
    entropyBase := ← fieldOr d.entropyBase Json.Value.amount? (field "default_entropy_base")
    maxAssignments := ← fieldOr d.maxAssignments Json.Value.count? (field "max_assignment_space")
    comment := ← fieldOr d.comment Json.Value.remark? (field "_comment") }

/-- Settings from a text, if it has any. -/
def Settings.ofJson? (text : String) : Option (Settings α) :=
  (Json.read? text).bind Settings.ofValue?

/-- Settings from a text. -/
def Settings.ofJson (text : String) : Except (SettingsError α) (Settings α) :=
  match ofJson? text with
  | some s => .ok s
  | none => .error .malformed

end JointProb
