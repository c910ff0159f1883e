/-
  JointProb — catalogs of variables.

  A catalog is a list of variables in a fixed order.  Its assignments, one
  state for each variable, are numbered from zero: see `MixedRadix`.

  * `Catalog.ofVariables` makes a catalog of variables with distinct names,
    unless there are too many assignments;
  * `Catalog.encode` and `Catalog.decode` number the assignments;
  * `Catalog.indexOf?` and `Catalog.named?` look names up in a map that is kept
    beside the variables;
  * `Catalog.rename` replaces the names, in this map as well, and keeps all
    else.
-/
import JointProb.Error
import JointProb.MixedRadix
import JointProb.Catalog.Variable

namespace JointProb

variable {α : Type}

/-- A variable that has a position in a catalog. -/
structure PlacedVariable extends Variable where
  index : Nat
deriving DecidableEq, Repr

/-- Variables in a fixed order, each with its position, and a map from their
    names to the positions. -/
structure Catalog where
  placed : List PlacedVariable
  byName : List (String × Nat)
deriving DecidableEq, Repr

/-- One state of one variable, both by position. -/
structure Constraint where
  var : Nat
  state : Nat
deriving DecidableEq, Repr

/-! ## Names -/

/-- Accept a list of names if all are identifiers and none of them comes
    twice or is among the `seen` ones; otherwise report the first that is
    not, for a line. -/
def checkNames (line : Nat) (seen : List String) : List String → Except (SpecError α) Unit
  | [] => .ok ()
  | name :: names =>
    if ¬ isIdentifier name then .error (.invalidDeclaration line (.invalidName name))
    else if name ∈ seen then .error (.repeatedVariable line name)
    else checkNames line (name :: seen) names

/-- A map from names to positions, with more names and their positions from
    `index` on.  A name that is no identifier or that the map has already is
    reported. -/
def noteNames (index : Nat) (byName : List (String × Nat)) :
    List String → Except (SpecError α) (List (String × Nat))
  | [] => .ok byName
  | name :: names =>
    if ¬ isIdentifier name then .error (.invalidDeclaration 0 (.invalidName name))
    else if (byName.lookup name).isSome then .error (.repeatedVariable 0 name)
    else noteNames (index + 1) ((name, index) :: byName) names

/-! ## Assignments -/

namespace Catalog

variable (c : Catalog)

/-- The variables. -/
def vars : List Variable := c.placed.map PlacedVariable.toVariable

/-- The names of the variables. -/
def names : List String := c.vars.map Variable.name

/-- The numbers of states of the variables. -/
def cardinalities : List Nat := c.vars.map Variable.cardinality

/-- The number of assignments. -/
def size : Nat := MixedRadix.size c.cardinalities

/-- What one state further counts, for each variable. -/
def placeValues : List Nat := MixedRadix.placeValues c.cardinalities

/-- The number of an assignment. -/
def encode (states : List Nat) : Nat := MixedRadix.value c.cardinalities states

/-- The assignment with a number. -/
def decode (linear : Nat) : List Nat := MixedRadix.digits c.cardinalities linear

/-- The state of one variable in the assignment with a number. -/
def stateAt (linear var : Nat) : Nat := MixedRadix.digit c.cardinalities var linear

/-! ## Lookup -/

/-- The position of the variable with a name. -/
def indexOf? (name : String) : Option Nat := c.byName.lookup name

/-- The variable with a name. -/
def named? (name : String) : Option PlacedVariable := (c.indexOf? name).bind (c.placed[·]?)

/-- The label of a state of a variable. -/
def label? (var state : Nat) : Option String := c.vars[var]?.bind (·.states[state]?)

/-- A constraint in words, a question mark standing for a state without a
    label. -/
def describeConstraint? (x : Constraint) : Option String :=
  c.vars[x.var]?.map fun v => v.name ++ "=" ++ (v.states[x.state]?).getD "?"

/-- Constraints in words. -/
def describe (fixed : List Constraint) : String :=
  ", ".intercalate (fixed.filterMap c.describeConstraint?)

/-- The constraint that a name and a state label stand for. -/
def resolve (name state : String) : Except QueryError Constraint :=
  match c.named? name with
  | none => .error (.unknownVariable name)
  | some v =>
    match v.resolve? state with
    | none => .error (.unknownState name state)
    | some s => .ok ⟨v.index, s⟩

/-! ## Construction -/

/-- The largest number of assignments that a report states: a count of 128
    bits, full when the product is larger. -/
def countLimit : Nat := Nat.pow 2 128 - 1

/-- A catalog of variables with distinct identifiers as names and at most
    `cap` assignments; their numbers fit a word. -/
def ofVariables (vars : List Variable) (cap : Nat) : Except (SpecError α) Catalog :=
  let size := MixedRadix.size (vars.map Variable.cardinality)
  if cap < size ∨ Text.wordLimit ≤ size then .error (.spaceTooLarge (min size countLimit) cap)
  else (noteNames 0 [] (vars.map Variable.name)).map fun byName =>
    ⟨vars.zipIdx.map fun (v, i) => ⟨v, i⟩, byName⟩

/-- A catalog of variables with the states `0` and `1`. -/
def ofNames (names : List String) (cap : Nat) : Except (SpecError α) Catalog :=
  ofVariables (names.map Variable.boolean) cap

/-- The same variables under other names, in the same order, as far as there are
    other names. -/
def rename (names : List String) : Except (SpecError α) Catalog :=
  (noteNames 0 [] names).map fun byName =>
    ⟨c.placed.mapIdx fun i v => { v with name := (names[i]?).getD v.name }, byName⟩

variable {c} {c' : Catalog} {names : List String}

/-- Other names leave the states. -/
theorem states_of_rename (h : (c.rename names : Except (SpecError α) Catalog) = .ok c') :
    c'.vars.map Variable.states = c.vars.map Variable.states := by
  rw [rename] at h
  cases hnames : (noteNames 0 [] names : Except (SpecError α) _) with
  | error e => simp [hnames, Except.map] at h
  | ok byName =>
    rw [hnames] at h
    cases h
    apply List.ext_getElem <;> simp [vars]

theorem size_of_rename (h : (c.rename names : Except (SpecError α) Catalog) = .ok c') :
    c'.size = c.size := by
  have hcard (d : Catalog) : d.cardinalities = (d.vars.map Variable.states).map List.length := by
    rw [List.map_map]
    rfl
  rw [size, size, hcard, hcard, states_of_rename h]

end Catalog

end JointProb
