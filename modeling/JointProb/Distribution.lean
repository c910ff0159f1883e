/-
  JointProb — joint distributions.

  A distribution gives a probability to every assignment of a catalog, in the
  order of their numbers.

  * `Distribution.mass` sums the assignments that agree with constraints;
  * `Distribution.probability` and `Distribution.conditional` are `P(t)` and
    `P(t | c)` by position, the same with `Of` by name;
  * `Distribution.jointOf` is the entry of one full assignment.
-/
import JointProb.Catalog.Basic
import JointProb.Weights

namespace JointProb

variable {α : Type}

/-- A table of probabilities over the assignments of a catalog. -/
structure Distribution (α : Type) where
  catalog : Catalog
  probs : List α
  length_probs : probs.length = catalog.size

namespace Distribution

variable (d : Distribution α)

/-! ## Entries -/

/-- The assignments with their probabilities, in order. -/
def entries : List (List Nat × α) := d.probs.mapIdx fun linear p => (d.catalog.decode linear, p)

/-- The same distribution with other names for its variables. -/
def withNames (names : List String) : Except (SpecError α) (Distribution α) :=
  match h : (d.catalog.rename names : Except (SpecError α) Catalog) with
  | .error e => .error e
  | .ok c => .ok ⟨c, d.probs, by rw [Catalog.size_of_rename h, d.length_probs]⟩

variable [Scalar α]

/-- The sum of all probabilities. -/
def total : α := Weights.compensatedSum d.probs

/-- Whether the assignment with a number agrees with constraints. -/
def agrees (radices : List Nat) (fixed : List Constraint) (linear : Nat) : Bool :=
  fixed.all fun x => MixedRadix.digit radices x.var linear == x.state

/-- The sum over all assignments that agree with constraints. -/
def mass (fixed : List Constraint) : α :=
  if fixed.isEmpty then d.total
  else
    let radices := d.catalog.cardinalities
    Weights.compensatedSum <|
      (d.probs.zipIdx.filter fun (_, linear) => agrees radices fixed linear).map Prod.fst

/-! ## Probabilities by position -/

/-- Accept constraints on variables and states that exist. -/
def check : List Constraint → Except (Failure α) Unit
  | [] => .ok ()
  | x :: xs =>
    match d.catalog.vars[x.var]? with
    | none => .error (.stats (.variableOutOfRange x.var d.catalog.vars.length))
    | some v =>
      if x.state < v.cardinality then check xs
      else .error (.query (.unknownState v.name (toString x.state)))

/-- The probability of the targets given the conditions. -/
def conditionalMass (targets conditions : List Constraint) : Except QueryError α :=
  let joint := d.mass (targets ++ conditions)
  if conditions.isEmpty then .ok joint
  else
    let given := d.mass conditions
    if given == 0 then .error (.zeroCondition (d.catalog.describe conditions))
    else .ok (joint / given)

/-- The probability of constraints. -/
def probability (fixed : List Constraint) : Except (Failure α) α :=
  (d.check fixed).map fun _ => d.mass fixed

/-- The probability of the targets given the conditions, both checked. -/
def conditional (targets conditions : List Constraint) : Except (Failure α) α :=
  match d.check targets, d.check conditions with
  | .error e, _ | _, .error e => .error e
  | .ok _, .ok _ => (d.conditionalMass targets conditions).mapError .query

/-! ## Probabilities by name -/

/-- The constraints that names with states stand for. -/
def resolve (named : List (String × String)) : Except QueryError (List Constraint) :=
  named.mapM fun (name, state) => d.catalog.resolve name state

/-- The probability of states given by name. -/
def probabilityOf (named : List (String × String)) : Except (Failure α) α :=
  ((d.resolve named).map d.mass).mapError .query

/-- The probability of the targets given the conditions, both by name. -/
def conditionalOf (targets conditions : List (String × String)) : Except (Failure α) α :=
  match d.resolve targets, d.resolve conditions with
  | .error e, _ | _, .error e => .error (.query e)
  | .ok targets, .ok conditions => (d.conditionalMass targets conditions).mapError .query

/-- The name of a variable. -/
def nameOf (var : Nat) : String := (d.catalog.vars[var]?.map Variable.name).getD ""

/-- Constraints without repetitions, unless two of them differ in the state of
    one variable. -/
def consistent (seen : List Constraint) : List Constraint → Except QueryError (List Constraint)
  | [] => .ok seen
  | x :: xs =>
    match seen.find? (·.var == x.var) with
    | none => consistent (seen ++ [x]) xs
    | some y =>
      if y.state = x.state then consistent seen xs else .error (.conflicting (d.nameOf x.var))

/-- The states of all variables, if each of them is constrained. -/
def assignment (fixed : List Constraint) : Except QueryError (List Nat) :=
  (d.catalog.vars.zipIdx).mapM fun (v, var) =>
    match fixed.find? (·.var == var) with
    | some x => .ok x.state
    | none => .error (.stateNeeded v.name v.cardinality)

/-- The entry of the assignment that names with states describe in full. -/
def jointOf (named : List (String × String)) : Except (Failure α) α :=
  let states := (d.resolve named).bind fun fixed => (d.consistent [] fixed).bind d.assignment
  (states.map fun states => (d.probs[d.catalog.encode states]?).getD 0).mapError .query

end Distribution

end JointProb
