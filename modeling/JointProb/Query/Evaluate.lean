/-
  JointProb — answering bound queries.

  * `Query.inRange` rejects positions that a catalog does not have, as in a
    query bound to another one;
  * `Query.evaluate` gives the answer under tolerances;
  * `Distribution.ask` reads, binds and evaluates a text under the default
    tolerances.
-/
import JointProb.Distribution
import JointProb.Query.Bind
import JointProb.Query.Parser
import JointProb.Settings.Basic

namespace JointProb

variable {α : Type}

/-- The answer to a query. -/
inductive Value (α : Type) where
  | number (x : α)
  | truth (b : Bool)
deriving DecidableEq, Repr

/-! ## Positions -/

namespace Query

/-- Accept the position of a variable that exists. -/
def variableInRange (c : Catalog) (var : Nat) : Except QueryError Variable :=
  match c.vars[var]? with
  | some v => .ok v
  | none => .error (.unknownVariable ("#" ++ toString var))

/-- Accept constraints on variables and states that exist. -/
def constraintsInRange (c : Catalog) : List Constraint → Except QueryError Unit
  | [] => .ok ()
  | x :: xs =>
    match variableInRange c x.var with
    | .error e => .error e
    | .ok v =>
      if x.state < v.cardinality then constraintsInRange c xs
      else .error (.unknownState v.name (toString x.state))

/-- The constraints that entries stand for. -/
def constraints (specs : List BoundSpec) : List Constraint := specs.map BoundSpec.toConstraint

/-- Accept a query with positions that all exist. -/
def inRange (c : Catalog) : Query α → Except QueryError Unit
  | .probability targets conditions => constraintsInRange c (constraints (targets ++ conditions))
  | .independence a b => do
    discard (variableInRange c a)
    discard (variableInRange c b)
  | .condIndependence a b given => do
    discard (variableInRange c a)
    discard (variableInRange c b)
    discard (variableInRange c given)
  | .binary _ left right => do
    inRange c left
    inRange c right
  | .negate operand => inRange c operand
  | .number _ => .ok ()

end Query

variable [Scalar α] (d : Distribution α)

/-! ## Independence -/

namespace Distribution

/-- The constraints that a variable has each of its states. -/
def choices (var : Nat) : List Constraint :=
  (List.range ((d.catalog.vars[var]?.map Variable.cardinality).getD 0)).map (⟨var, ·⟩)

/-- Whether `|P(x, y) - P(x) P(y)|` is at most a tolerance for all states `x`
    of one and `y` of another variable, under a measure of constraints. -/
def independentUnder (measure : List Constraint → α) (tolerance : α) (a b : Nat) : Bool :=
  let left := (d.choices a).map fun x => (x, measure [x])
  let right := (d.choices b).map fun y => (y, measure [y])
  left.all fun (x, p) => right.all fun (y, q) =>
    !decide (tolerance < Scalar.abs (measure [x, y] - p * q))

/-- Whether two variables are independent. -/
def independent (tolerance : α) (a b : Nat) : Bool := d.independentUnder d.mass tolerance a b

/-- Whether two variables are independent given each state of a third one
    that has a positive probability. -/
def condIndependent (tolerance : α) (a b given : Nat) : Bool :=
  (d.choices given).all fun z =>
    let weight := d.mass [z]
    if weight ≤ 0 then true
    else d.independentUnder (fun xs => d.mass (xs ++ [z]) / weight) tolerance a b

end Distribution

/-! ## Evaluation -/

/-- The result of an operation; a quotient by zero has none. -/
def Operator.apply (op : Operator) (x y : α) : Except QueryError α :=
  match op with
  | .add => .ok (x + y)
  | .sub => .ok (x - y)
  | .mul => .ok (x * y)
  | .div => if y == 0 then .error .divisionByZero else .ok (x / y)

namespace Query

/-- The number that arithmetic gives. -/
def amount : Query α → Except QueryError α
  | .number x => .ok x
  | .negate operand => (amount operand).map (-·)
  | .probability targets conditions =>
    d.conditionalMass (constraints targets) (constraints conditions)
  | .binary op left right => do
    let x ← amount left
    let y ← amount right
    op.apply x y
  | .independence .. | .condIndependence .. => .error (.malformed 0 .predicateInArithmetic)

/-- The truth of a question about independence. -/
def holds (tolerance : α) : Query α → Except QueryError Bool
  | .independence a b => .ok (d.independent tolerance a b)
  | .condIndependence a b given => .ok (d.condIndependent tolerance a b given)
  | _ => .error (.malformed 0 .predicateNeeded)

/-- The answer to a query under tolerances. -/
def evaluateWith (tolerances : Tolerances α) (q : Query α) : Except QueryError (Value α) :=
  match q.inRange d.catalog with
  | .error e => .error e
  | .ok () =>
    if q.isPredicate then (q.holds d tolerances.independence).map .truth
    else (q.amount d).map .number

/-- The answer to a query under the default tolerances. -/
def evaluate (q : Query α) : Except QueryError (Value α) := q.evaluateWith d .default

end Query

namespace Distribution

/-- The answer to the text of a query under tolerances. -/
def askWith (tolerances : Tolerances α) (text : String) : Except QueryError (Value α) := do
  let e ← Expr.parse text
  let q ← e.bind d.catalog
  q.evaluateWith d tolerances

/-- The answer to the text of a query. -/
def ask (text : String) : Except QueryError (Value α) := d.askWith .default text

end Distribution

end JointProb
