/-
  JointProb — binding queries to a catalog.

  * `VarSpec.bind` finds the state that an entry stands for: the one it says,
    or the true state of its variable, or the false one if it is negated;
  * `bindSide` binds the entries on one side of a bar, where a variable may
    come again only with the same state;
  * `Expr.bind` binds a whole query.
-/
import JointProb.Query.Tree

namespace JointProb

variable {α : Type} (c : Catalog)

/-- The variable with a name, which must exist. -/
def Catalog.lookup (name : String) : Except QueryError PlacedVariable :=
  match c.named? name with
  | some v => .ok v
  | none => .error (.unknownVariable name)

namespace VarSpec

variable (s : VarSpec)

/-- The state that an entry says, if it says one. -/
def explicitState (v : Variable) : Except QueryError (Option Nat) :=
  match s.state with
  | none => .ok none
  | some label =>
    match v.resolve? label with
    | some state => .ok (some state)
    | none => .error (.unknownState s.name label)

/-- The state that an entry stands for, and how it was chosen. -/
def choose (v : Variable) (stated : Option Nat) : Except QueryError (Nat × Selector) :=
  match s.negated, stated, v.defaults? with
  | false, some state, _ => .ok (state, .explicit)
  | _, _, none => .error (.stateNeeded s.name v.cardinality)
  | false, none, some defaults => .ok (defaults.trueState, .defaultTrue)
  | true, none, some defaults => .ok (defaults.falseState, .defaultFalse)
  | true, some state, some defaults =>
    if state = defaults.falseState then .ok (defaults.falseState, .defaultFalse)
    else .error (.conflicting s.name)

/-- An entry bound to a catalog. -/
def bind : Except QueryError BoundSpec :=
  match c.lookup s.name with
  | .error e => .error e
  | .ok v =>
    match s.explicitState v.toVariable with
    | .error e => .error e
    | .ok stated =>
      (s.choose v.toVariable stated).map fun (state, selector) => ⟨⟨v.index, state⟩, selector⟩

end VarSpec

/-- Entries bound after others, without repetitions. -/
def bindAfter (bound : List BoundSpec) : List VarSpec → Except QueryError (List BoundSpec)
  | [] => .ok bound
  | s :: ss =>
    match s.bind c with
    | .error e => .error e
    | .ok x =>
      match bound.find? (·.var == x.var) with
      | none => bindAfter (bound ++ [x]) ss
      | some y => if y.state = x.state then bindAfter bound ss else .error (.conflicting s.name)

/-- The entries on one side of a bar. -/
def bindSide (specs : List VarSpec) : Except QueryError (List BoundSpec) := bindAfter c [] specs

/-- The position of a name. -/
def Catalog.position (name : String) : Except QueryError Nat :=
  (c.lookup name).map PlacedVariable.index

/-- A query bound to a catalog; of several faults the first in the text is
    reported. -/
def Expr.bind : Expr α → Except QueryError (Query α)
  | .probability targets conditions => do
    .ok (.probability (← bindSide c targets) (← bindSide c conditions))
  | .independence a b => do .ok (.independence (← c.position a) (← c.position b))
  | .condIndependence a b given => do
    .ok (.condIndependence (← c.position a) (← c.position b) (← c.position given))
  | .binary op left right => do .ok (.binary op (← bind left) (← bind right))
  | .negate operand => do .ok (.negate (← bind operand))
  | .number x => .ok (.number x)

end JointProb
