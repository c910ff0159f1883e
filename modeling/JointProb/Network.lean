/-
  JointProb — networks of conditional probabilities.

  A network gives every variable of a catalog a table of its probabilities
  given some other variables, its parents.

  * `Network.ofNodes` accepts tables that fit the catalog, one for each
    variable, with parents that do not depend on each other in a circle;
  * `Network.order` lists the variables, parents first;
  * `Network.expand` multiplies the tables out to a joint distribution.
-/
import JointProb.Distribution
import JointProb.Settings.Basic

namespace JointProb

variable {α : Type}

/-- The conditional probabilities of a variable: for each assignment to the
    parents, in the order of their numbers, those of all its states. -/
structure Node (α : Type) where
  child : Nat
  parents : List Nat
  table : List α
deriving DecidableEq, Repr

/-- A network: the node at each position is that of the variable there. -/
structure Network (α : Type) where
  catalog : Catalog
  nodes : List (Node α)
deriving DecidableEq, Repr

/-! ## Nodes -/

/-- The number of states of a variable; zero if there is no such variable. -/
def Catalog.cardinalityAt (c : Catalog) (var : Nat) : Nat := (c.cardinalities[var]?).getD 0

namespace Node

variable (c : Catalog) (n : Node α)

/-- The numbers of states of the parents. -/
def radices : List Nat := n.parents.map c.cardinalityAt

/-- The number of entries that the table should have; a count that does not
    fit a word is full. -/
def expectedEntries : Nat :=
  min (MixedRadix.size (n.radices c) * c.cardinalityAt n.child) (Text.wordLimit - 1)

/-- Accept a node that fits a catalog. -/
def checkShape : Except (SpecError α) Unit :=
  let count := c.vars.length
  match c.vars[n.child]? with
  | none => .error (.invalidDeclaration 0 (.noSuchVariable n.child count))
  | some v =>
    match n.parents.find? (count ≤ ·) with
    | some p => .error (.invalidDeclaration 0 (.noSuchParent v.name p count))
    | none =>
      if n.table.length = n.expectedEntries c then .ok ()
      else
        .error (.invalidDeclaration 0 (.tableLength v.name (n.expectedEntries c) n.table.length))

/-- The row of the table for the states of the parents in an assignment. -/
def row (states : List Nat) : Nat :=
  MixedRadix.value (n.radices c) (n.parents.map fun p => (states[p]?).getD 0)

/-- The entry of the table for an assignment. -/
def entry [Zero α] (states : List Nat) : α :=
  let place := n.row c states * c.cardinalityAt n.child + (states[n.child]?).getD 0
  (n.table[place]?).getD 0

end Node

namespace Network

/-! ## Order -/

/-- The first variable that is not listed and waits for no parent. -/
def nextReady? (listed waiting : List Nat) : Option Nat :=
  (List.range waiting.length).find? fun v => v ∉ listed ∧ waiting[v]? = some 0

/-- What each variable waits for once another one is listed. -/
def settle (nodes : List (Node α)) (listed : Nat) (waiting : List Nat) : List Nat :=
  List.zipWith (fun count n => count - n.parents.count listed) waiting nodes

/-- List further variables after some: always the first that waits for no
    parent.  If all that are left wait they are the error. -/
def orderFrom (nodes : List (Node α)) (listed waiting : List Nat) :
    Nat → Except (List Nat) (List Nat)
  | 0 => .ok listed
  | left + 1 =>
    match nextReady? listed waiting with
    | none => .error ((List.range nodes.length).filter fun v => v ∉ listed)
    | some v => orderFrom nodes (listed ++ [v]) (settle nodes v waiting) left

variable (n : Network α)

/-- The names of variables. -/
def namesOf (vars : List Nat) : List String :=
  vars.filterMap fun v => n.catalog.vars[v]?.map Variable.name

/-- The variables, each after its parents, and otherwise in their order. -/
def order : Except (SpecError α) (List Nat) :=
  (orderFrom n.nodes [] (n.nodes.map fun m => m.parents.length) n.nodes.length).mapError
    fun stuck => .cyclic (n.namesOf stuck)

/-! ## Construction -/

/-- Accept nodes that all fit a catalog. -/
def checkShapes (c : Catalog) : List (Node α) → Except (SpecError α) Unit
  | [] => .ok ()
  | m :: ms =>
    match m.checkShape c with
    | .error e => .error e
    | .ok () => checkShapes c ms

/-- Accept nodes of different variables. -/
def checkDistinct (c : Catalog) (nodes : List (Node α)) : Except (SpecError α) Unit :=
  match c.vars.zipIdx.find? fun (_, i) => 1 < nodes.countP (·.child == i) with
  | some (v, _) => .error (.repeatedVariable 0 v.name)
  | none => .ok ()

/-- The nodes in the order of the catalog. -/
def arrange (c : Catalog) (nodes : List (Node α)) : Except (SpecError α) (List (Node α)) :=
  c.vars.zipIdx.mapM fun (v, i) =>
    match nodes.find? (·.child == i) with
    | some m => .ok m
    | none => .error (.missingTable v.name)

/-- The network of nodes, one for each variable, in any order. -/
def ofNodes (c : Catalog) (nodes : List (Node α)) : Except (SpecError α) (Network α) := do
  checkShapes c nodes
  checkDistinct c nodes
  let arranged ← arrange c nodes
  let network : Network α := ⟨c, arranged⟩
  network.order.map fun _ => network

/-! ## Expansion -/

/-- The nodes in an order of their variables. -/
def nodesIn (order : List Nat) : List (Node α) := order.filterMap (n.nodes[·]?)

variable [Scalar α]

/-- The product of the entries for an assignment, from a factor on.  Nothing
    is multiplied to zero. -/
def weightFrom (c : Catalog) (states : List Nat) (factor : α) : List (Node α) → α
  | [] => factor
  | m :: ms =>
    let product := factor * m.entry c states
    if product == 0 then product else weightFrom c states product ms

/-- The product of the entries for the assignment with a number. -/
def weight (nodes : List (Node α)) (linear : Nat) : α :=
  weightFrom n.catalog (n.catalog.decode linear) 1 nodes

/-- The products for all assignments, in the order of their numbers, not yet
    scaled. -/
def weights (order : List Nat) : List α :=
  (List.range n.catalog.size).map (n.weight (n.nodesIn order))

/-- The joint distribution of a network, its sum scaled to one. -/
def expand (settings : Settings α) : Except (SpecError α) (Distribution α) :=
  match n.order with
  | .error e => .error e
  | .ok order =>
    match h : Weights.normalizeWithin settings.tolerances.normalizationBand (n.weights order) with
    | .error sum => .error (.networkSum sum)
    | .ok probs => .ok ⟨n.catalog, probs, by
        rw [Weights.length_of_normalizeWithin h, weights, List.length_map, List.length_range]⟩

end Network

end JointProb
