/-
  JointProb — the trees of queries.

  A query is arithmetic over numbers and probabilities, or a question about
  independence.  The same trees serve twice: as written, with names and state
  labels, and bound to a catalog, with positions.

  * `Tree` is the common shape, `Expr` the written form, `Query` the bound
    one;
  * `Tree.isPredicate` tells the questions from the arithmetic.
-/
import JointProb.Catalog.Basic

namespace JointProb

/-- The operations of arithmetic. -/
inductive Operator where
  | add
  | sub
  | mul
  | div
deriving DecidableEq, Repr

/-- A query over entries `σ` of probabilities, names `ν` and numbers `α`. -/
inductive Tree (σ ν α : Type) where
  | probability (targets conditions : List σ)
  | independence (a b : ν)
  | condIndependence (a b given : ν)
  | binary (op : Operator) (left right : Tree σ ν α)
  | negate (operand : Tree σ ν α)
  | number (x : α)
deriving DecidableEq, Repr

/-- Whether the answer is true or false instead of a number. -/
def Tree.isPredicate {σ ν α : Type} : Tree σ ν α → Bool
  | .independence .. | .condIndependence .. => true
  | _ => false

/-- An entry of a probability as written: a name, perhaps negated, perhaps
    with a state, and the byte at which the name starts. -/
structure VarSpec where
  name : String
  negated : Bool
  state : Option String
  position : Nat
deriving DecidableEq, Repr

/-- How the state of an entry was chosen. -/
inductive Selector where
  | explicit
  | defaultTrue
  | defaultFalse
deriving DecidableEq, Repr

/-- An entry of a probability, bound to a catalog. -/
structure BoundSpec extends Constraint where
  selector : Selector
deriving DecidableEq, Repr

/-- A query as written. -/
abbrev Expr (α : Type) := Tree VarSpec String α

/-- A query bound to a catalog. -/
abbrev Query (α : Type) := Tree BoundSpec Nat α

end JointProb
