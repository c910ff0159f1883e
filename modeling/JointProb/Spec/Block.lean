/-
  JointProb — blocks of conditional probabilities.

  A block has a variable, its parents and entries, as they are written.

  * `Block.isShorthand` tells the notation of the entries;
  * `Block.fullTable` reads entries `(state | parent states): p`, which must
    cover all states, with the sum one for each assignment to the parents;
  * `Block.shorthandTable` reads entries `bits: p`, where a bit stands for the
    true or the false state of a parent and `p` is the probability of the true
    state;
  * `Block.node` does what the notation asks for.
-/
import JointProb.Network
import JointProb.Spec.Line

namespace JointProb

open Text

variable {α : Type}

/-- An entry of a block. -/
structure BlockEntry where
  line : Nat
  key : List Char
  value : List Char
deriving DecidableEq, Repr

/-- The block of a variable: its parents, the line of its header, and its
    entries. -/
structure Block where
  child : Nat
  parents : List Nat
  line : Nat
  entries : List BlockEntry
deriving DecidableEq, Repr

/-- The variable at a position of a catalog. -/
def Catalog.variableAt (c : Catalog) (i : Nat) : Variable := (c.vars[i]?).getD ⟨"", []⟩

namespace BlockEntry

variable (e : BlockEntry)

/-- Whether the key has a parenthesis in front. -/
def isFull : Bool := e.key.head? == some '('

/-- The label of the child and those of the parents in a key. -/
def labels : Except (SpecError α) (List Char × List (List Char)) :=
  let inner? := if e.isFull then (dropStart? ['('] e.key).bind (dropEnd? [')']) else some e.key
  match inner? with
  | none => .error (.malformed e.line (.unbalanced (String.ofList e.key)))
  | some inner =>
    match cut? ['|'] inner with
    | some (child, parents) => .ok (trim child, fields parents)
    | none => .ok (trim inner, [])

/-- The state of a variable with a label. -/
def stateOf (v : Variable) (label : List Char) : Except (SpecError α) Nat :=
  match v.resolve? (String.ofList label) with
  | some state => .ok state
  | none => .error (.malformed e.line (.unknownState v.name (String.ofList label)))

end BlockEntry

namespace Block

variable (c : Catalog) (b : Block)

/-- The variable of a block. -/
def variableIn : Variable := c.variableAt b.child

/-- The numbers of states of the parents. -/
def radices : List Nat := b.parents.map c.cardinalityAt

/-- The number of assignments to the parents. -/
def rowCount : Nat := MixedRadix.size (b.radices c)

/-- Whether entries are in shorthand.  Without parents this is a single entry
    with the key `0` or `1`; else all keys have a parenthesis in front or none
    has. -/
def isShorthand : Except (SpecError α) Bool :=
  match b.parents, b.entries with
  | [], [e] => .ok ((e.key == ['0'] || e.key == ['1']) && (b.variableIn c).isBinary)
  | [], _ => .ok false
  | _ :: _, [] => .ok false
  | _ :: _, e :: es =>
    match es.find? (·.isFull != e.isFull) with
    | some mixed => .error (.mixedNotation mixed.line (b.variableIn c).name)
    | none => .ok !e.isFull

/-- A row of the table in words. -/
def describeRow (row : Nat) : String :=
  if b.parents.isEmpty then "no parents"
  else
    ", ".intercalate <|
      List.zipWith (fun p state =>
          let v := c.variableAt p
          v.name ++ "=" ++ (v.states[state]?).getD "?")
        b.parents (MixedRadix.digits (b.radices c) row)

/-- Accept a table with as many entries as it should have. -/
def checkCoverage (expected found : Nat) : Except (SpecError α) Unit :=
  if found = expected then .ok ()
  else .error (.incompleteTable (b.variableIn c).name expected found)

variable [Scalar α]

/-! ## Full notation -/

/-- The states of the parents with labels. -/
def parentStates (e : BlockEntry) :
    List Nat → List (List Char) → Except (SpecError α) (List Nat)
  | p :: ps, label :: labels =>
    match e.stateOf (c.variableAt p) label with
    | .error err => .error err
    | .ok state => (parentStates e ps labels).map (state :: ·)
  | _, _ => .ok []

/-- The place of an entry in the table. -/
def fullPlace (e : BlockEntry) : Except (SpecError α) Nat := do
  let v := b.variableIn c
  let (child, parents) ← e.labels
  if parents.length ≠ b.parents.length then
    .error (.malformed e.line (.parentCount v.name b.parents.length parents.length))
  else
    let state ← e.stateOf v child
    let states ← parentStates c e b.parents parents
    .ok (MixedRadix.value (b.radices c) states * v.cardinality + state)

/-- Entries with their places in the table, after others.  A place is taken
    once. -/
def placed (place : BlockEntry → Except (SpecError α) Nat) (cells : List (Nat × α)) :
    List BlockEntry → Except (SpecError α) (List (Nat × α))
  | [] => .ok cells
  | e :: es =>
    match place e with
    | .error err => .error err
    | .ok i =>
      match Line.probability e.line e.value with
      | .error err => .error err
      | .ok p =>
        if cells.any (·.1 == i) then
          .error (.repeatedEntry e.line (b.variableIn c).name (String.ofList e.key))
        else placed place (cells ++ [(i, p)]) es

/-- Accept rows with the sum one each, within a tolerance. -/
def checkRows (tolerance : α) (row : Nat) : List (List α) → Except (SpecError α) Unit
  | [] => .ok ()
  | ps :: rows =>
    let sum := Weights.compensatedSum ps
    if Weights.near tolerance sum 1 then checkRows tolerance (row + 1) rows
    else .error (.rowSum (b.variableIn c).name (b.describeRow c row) sum)

/-- The table of a block in full notation, row by row. -/
def fullTable (settings : Settings α) : Except (SpecError α) (List α) := do
  let states := (b.variableIn c).cardinality
  let rows := b.rowCount c
  let cells ← b.placed c (b.fullPlace c) [] b.entries
  b.checkCoverage c (rows * states) cells.length
  let table := (List.range rows).map fun r =>
    (List.range states).map fun s => (cells.lookup (r * states + s)).getD 0
  b.checkRows c settings.tolerances.sum 0 table
  .ok table.flatten

/-! ## Shorthand -/

/-- The true and the false state of a variable in a shorthand block. -/
def defaultsIn (v : Variable) : Except (SpecError α) DefaultStates :=
  let child := (b.variableIn c).name
  if ¬ v.isBinary then .error (.malformed b.line (.notTwoStates child v.name v.cardinality))
  else
    match v.defaults? with
    | some defaults => .ok defaults
    | none => .error (.malformed b.line (.notTrueFalse child v.name v.states))

/-- The probabilities of two states in their order. -/
def pair (own : DefaultStates) (whenFalse whenTrue : α) : List α :=
  if own.trueState = 0 then [whenTrue, whenFalse] else [whenFalse, whenTrue]

/-- The table of a block with a single entry and no parents. -/
def rootTable (own : DefaultStates) (e : BlockEntry) : Except (SpecError α) (List α) :=
  (Line.probability e.line e.value).map fun p =>
    let whenTrue := if e.key = ['1'] then p else 1 - p
    pair own (1 - whenTrue) whenTrue

/-- The row of an entry with a bit for each parent. -/
def bitsRow (parents : List DefaultStates) (e : BlockEntry) : Except (SpecError α) Nat :=
  if e.key.length = parents.length ∧ Line.isPattern e.key then
    .ok <| MixedRadix.value (b.radices c) <|
      List.zipWith (fun bit (d : DefaultStates) => if bit = '1' then d.trueState else d.falseState)
        e.key parents
  else .error (.invalidPattern e.line (String.ofList e.key))

/-- The table of a block in shorthand. -/
def shorthandTable : Except (SpecError α) (List α) := do
  let own ← b.defaultsIn c (b.variableIn c)
  let parents ← b.parents.mapM fun p => b.defaultsIn c (c.variableAt p)
  match b.parents, b.entries with
  | [], e :: _ => rootTable own e
  | _, _ =>
    let rows := b.rowCount c
    let cells ← b.placed c (b.bitsRow c parents) [] b.entries
    b.checkCoverage c rows cells.length
    .ok <| (List.range rows).flatMap fun r =>
      let p := (cells.lookup r).getD 0
      pair own (1 - p) p

/-! ## Nodes -/

/-- The node that a block describes. -/
def node (settings : Settings α) : Except (SpecError α) (Node α) := do
  let table ← if ← b.isShorthand c then b.shorthandTable c else b.fullTable c settings
  .ok ⟨b.child, b.parents, table⟩

end Block

end JointProb
