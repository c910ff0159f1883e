/-
  JointProb — marginal distributions.

  * `Distribution.marginal` sums out all variables but some;
  * `Marginal.get?` is the probability of states of those, `Marginal.entries`
    lists all of them.
-/
import JointProb.Distribution

namespace JointProb

variable {α : Type} [Scalar α]

/-- The probabilities of the assignments to some variables, in the order of
    their numbers, the first variable most significant. -/
structure Marginal (α : Type) where
  vars : List Nat
  cardinalities : List Nat
  probs : List α

namespace Marginal

/-- The probability of states of the variables. -/
def get? (m : Marginal α) (states : List Nat) : Option α :=
  if states.length = m.vars.length ∧
      (states.zip m.cardinalities).all (fun (s, r) => s < r) then
    m.probs[MixedRadix.value m.cardinalities states]?
  else none

/-- The assignments with their probabilities, in order. -/
def entries (m : Marginal α) : List (List Nat × α) :=
  m.probs.mapIdx fun i p => (MixedRadix.digits m.cardinalities i, p)

end Marginal

namespace Distribution

variable (d : Distribution α)

/-- Accept variables that exist. -/
def checkVariables (vars : List Nat) : Except (StatsError α) Unit :=
  match vars.find? (d.catalog.vars.length ≤ ·) with
  | some i => .error (.variableOutOfRange i d.catalog.vars.length)
  | none => .ok ()

/-- The probabilities with the numbers of their assignments to some
    variables, without the zero ones. -/
def projected (vars radices : List Nat) : List (Nat × α) :=
  let all := d.catalog.cardinalities
  (d.probs.zipIdx.filter fun (p, _) => p != 0).map fun (p, linear) =>
    (MixedRadix.value radices (vars.map fun v => MixedRadix.digit all v linear), p)

/-- The marginal distribution of variables that exist, each taken once. -/
def marginalOf (vars : List Nat) : Marginal α :=
  let radices := vars.map fun v => (d.catalog.cardinalities[v]?).getD 0
  let cells := d.projected vars radices
  { vars := vars
    cardinalities := radices
    probs := (List.range (MixedRadix.size radices)).map fun i =>
      cells.foldl (fun sum (j, p) => if j = i then sum + p else sum) 0 }

/-- The marginal distribution of variables. -/
def marginal (vars : List Nat) : Except (StatsError α) (Marginal α) :=
  (d.checkVariables vars).map fun _ => d.marginalOf vars.eraseDups

end Distribution

end JointProb
