/-
  JointProb — settings.

  * `Settings` has the tolerances, the base of logarithms and the largest
    number of assignments, with defaults for all;
  * `Settings.problems` are the values that make no sense, in a fixed order,
    and `Settings.check` accepts settings without any.
-/
import JointProb.Error

namespace JointProb

variable {α : Type} [Scalar α]

/-- Tolerances of numeric checks. -/
structure Tolerances (α : Type) where
  /-- How far a sum that should be one may be off. -/
  sum : α
  /-- How far off a table may be and still be scaled to one, relative to its
      sum. -/
  normalizationBand : α
  /-- How far a joint probability may be from the product of independent
      ones. -/
  independence : α
  /-- How far below zero mutual information may be. -/
  mutualInformation : α
deriving DecidableEq, Repr

/-- The settings of an engine. -/
structure Settings (α : Type) where
  tolerances : Tolerances α
  /-- The base of logarithms where none is given. -/
  entropyBase : α
  /-- The largest number of assignments of a distribution. -/
  maxAssignments : Nat
  comment : Option String
deriving DecidableEq, Repr

/-- The default tolerances. -/
def Tolerances.default : Tolerances α where
  sum := 1e-6
  normalizationBand := 0.05
  independence := 1e-9
  mutualInformation := 1e-9

/-- The default settings. -/
def Settings.default : Settings α where
  tolerances := .default
  entropyBase := 2.0
  maxAssignments := Nat.pow 2 22
  comment := none

/-! ## Checks -/

/-- Whether a tolerance is positive and finite. -/
def positive (x : α) : Bool := Scalar.isFinite x && !decide (x ≤ 0)

/-- All problems of settings. -/
def Settings.problems (s : Settings α) : List (Problem α) :=
  let t := s.tolerances
  let amounts := [("tolerances.sum", t.sum), ("tolerances.independence", t.independence),
    ("tolerances.mutual_information", t.mutualInformation)]
  let band : List (Problem α) :=
    if ¬ (0 < t.normalizationBand ∧ t.normalizationBand < 1) then
      [.bandOutOfRange t.normalizationBand]
    else if Scalar.isFinite t.sum ∧ t.normalizationBand ≤ t.sum then
      [.sumOutsideBand t.normalizationBand t.sum]
    else []
  let base : List (Problem α) :=
    if positive s.entropyBase && s.entropyBase != 1 then [] else [.invalidBase s.entropyBase]
  let space : List (Problem α) :=
    if s.maxAssignments < 2 then [.tooFewAssignments s.maxAssignments] else []
  (amounts.filter fun (_, x) => !positive x).map (fun (f, x) => .notPositive f x) ++
    band ++ base ++ space

/-- Accept settings without problems. -/
def Settings.check (s : Settings α) : Except (SettingsError α) Unit :=
  if s.problems.isEmpty then .ok () else .error (.invalid s.problems)

end JointProb
