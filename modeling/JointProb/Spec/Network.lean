/-
  JointProb — specifications that list conditional probabilities.

      variables: Rain, Late             variable Sky {Clear, Grey, Dark}
      Rain: None                        variable Bus {Full, Free}
      1: 0.3                            Sky <- None
      Late: Rain                        Clear: 0.5
      0: 0.15                           Grey: 0.3
      1: 0.6                            Dark: 0.2
                                        Bus <- (Sky)
                                        (Full | Clear): 0.1
                                        (Free | Clear): 0.9

  First come declarations of variables, then a block for each variable: a
  header with the parents, and entries.  Entries in full notation give the
  probability of a state given states of the parents, for all of them.
  Entries in shorthand give that of the true state given a bit for each
  parent.

  * `NetworkDraft.read` takes the lines in: declarations and blocks;
  * `NetworkDraft.network` makes a network of them;
  * `Network.ofText` does both, `Distribution.ofNetwork` also expands it.
-/
import JointProb.Spec.Block

namespace JointProb

open Text

variable {α : Type}

/-- What has been read of a network: the variables, and the blocks, the last
    one first. -/
structure NetworkDraft where
  vars : List Variable
  blocks : List Block

namespace NetworkDraft

/-! ## Declarations -/

/-- Nothing has been read. -/
def empty : NetworkDraft := ⟨[], []⟩

variable (d : NetworkDraft)

/-- Accept a declaration in front of all blocks. -/
def checkDeclaring (line : Nat) : Except (SpecError α) Unit :=
  if d.blocks.isEmpty then .ok () else .error (.invalidDeclaration line .afterBlock)

/-- Declare a variable. -/
def declare (line : Nat) (v : Variable) : Except (SpecError α) NetworkDraft :=
  if d.vars.any (·.name == v.name) then .error (.repeatedVariable line v.name)
  else .ok { d with vars := d.vars ++ [v] }

/-- Distinct labels after others, none of them empty. -/
def readStates (line : Nat) (states : List String) :
    List (List Char) → Except (SpecError α) (List String)
  | [] => .ok states
  | cs :: rest =>
    let state := String.ofList cs
    if cs.isEmpty then .error (.invalidDeclaration line .emptyState)
    else if state ∈ states then .error (.invalidDeclaration line (.repeatedState state))
    else readStates line (states ++ [state]) rest

/-- At least two labels between commas, and a closing brace. -/
def readBody (line : Nat) (body : List Char) : Except (SpecError α) (List String) :=
  match dropEnd? ['\x7d'] body with
  | none => .error (.invalidDeclaration line .unclosedStates)
  | some inner =>
    match readStates line [] (fields inner) with
    | .error e => .error e
    | .ok states =>
      if states.length < 2 then .error (.invalidDeclaration line .tooFewStates) else .ok states

/-- A variable from its name and its states. -/
def checkedVariable (line : Nat) (name : List Char) (states : List String) :
    Except (SpecError α) Variable :=
  let name := String.ofList name
  if isIdentifier name then .ok ⟨name, states⟩
  else .error (.invalidDeclaration line (.invalidName name))

/-- What follows the word `variable` in a line that declares one. -/
def declaration? (content : List Char) : Option (List Char) :=
  match dropStart? "variable".toList content with
  | some (c :: rest) =>
    if isBlank c ∧ ¬ contains ['<', '-'] content ∧ ¬ contains [':'] content then some (trim rest)
    else none
  | _ => none

/-- A variable with its states in braces, or without them a boolean one. -/
def readVariable (line : Nat) (text : List Char) : Except (SpecError α) Variable :=
  match cut? ['\x7b'] text with
  | none => checkedVariable line text ["0", "1"]
  | some (name, body) =>
    match readBody line body with
    | .error e => .error e
    | .ok states => checkedVariable line (trim name) states

/-! ## Headers of blocks -/

/-- The position of a declared variable. -/
def indexOf? (name : List Char) : Option Nat :=
  d.vars.findIdx? (·.name == String.ofList name)

/-- The position of a variable that must be declared. -/
def lookup (line : Nat) (name : List Char) : Except (SpecError α) Nat :=
  match d.indexOf? name with
  | some i => .ok i
  | none => .error (.unknownVariable line (String.ofList name))

/-- The name of a declared variable. -/
def nameOf (i : Nat) : String := (d.vars[i]?.map Variable.name).getD ""

/-- The names in a list of parents: none, or names between commas, perhaps in
    parentheses. -/
def parentNames (text : List Char) : List (List Char) :=
  let text := trim text
  if text.isEmpty ∨ equalUpToCase text "none".toList then []
  else
    let inner := ((dropStart? ['('] text).bind (dropEnd? [')'])).getD text
    (fields inner).filter fun n => !n.isEmpty

/-- The positions of distinct parents, after others. -/
def readParents (line child : Nat) (parents : List Nat) :
    List (List Char) → Except (SpecError α) (List Nat)
  | [] => .ok parents
  | name :: rest =>
    match d.lookup line name with
    | .error e => .error e
    | .ok p =>
      if p ∈ parents then
        .error (.invalidDeclaration line (.repeatedParent (d.nameOf child) (String.ofList name)))
      else readParents line child (parents ++ [p]) rest

/-- The variable and the parents of a header, if a line is one.  After an
    arrow all names must be declared; after a colon the line is an entry if
    they are not. -/
def readHeader (line : Nat) (content : List Char) :
    Except (SpecError α) (Option (Nat × List Nat)) :=
  match cut? ['<', '-'] content with
  | some (left, right) =>
    match d.lookup line (trim left) with
    | .error e => .error e
    | .ok child =>
      (d.readParents line child [] (parentNames right)).map fun parents => some (child, parents)
  | none =>
    match cut? [':'] content with
    | none => .ok none
    | some (left, right) =>
      let names := parentNames right
      match d.indexOf? (trim left) with
      | none => .ok none
      | some child =>
        if names.all fun n => (d.indexOf? n).isSome then
          (d.readParents line child [] names).map fun parents => some (child, parents)
        else .ok none

/-! ## Lines -/

/-- Open the block of a variable. -/
def openBlock (line child : Nat) (parents : List Nat) : Except (SpecError α) NetworkDraft :=
  if d.blocks.any (·.child == child) then .error (.repeatedVariable line (d.nameOf child))
  else .ok { d with blocks := ⟨child, parents, line, []⟩ :: d.blocks }

/-- Add an entry to the open block. -/
def readEntry (line : Nat) (content : List Char) : Except (SpecError α) NetworkDraft :=
  match d.blocks with
  | [] => .error (.malformed line (.outsideBlock (String.ofList content)))
  | block :: blocks =>
    match cut? [':'] content with
    | none => .error (.malformed line (.noEntry (String.ofList content)))
    | some (key, value) =>
      let entries := block.entries ++ [⟨line, trim key, trim value⟩]
      .ok { d with blocks := { block with entries } :: blocks }

/-- Declare boolean variables. -/
def declareAll (line : Nat) (names : List String) : Except (SpecError α) NetworkDraft :=
  names.foldlM (fun d name => d.declare line (.boolean name)) d

/-- Read a line. -/
def readLine (line : Nat) (content : List Char) : Except (SpecError α) NetworkDraft :=
  match Line.variablesHeader? content with
  | some rest => do
    d.checkDeclaring line
    d.declareAll line (← Line.names line rest)
  | none =>
    match declaration? content with
    | some text => do
      let v ← readVariable line text
      d.checkDeclaring line
      d.declare line v
    | none =>
      if d.vars.isEmpty then .error .noVariables
      else
        match d.readHeader line content with
        | .error e => .error e
        | .ok (some (child, parents)) => d.openBlock line child parents
        | .ok none => d.readEntry line content

/-- Read a text. -/
def read (text : String) : Except (SpecError α) NetworkDraft :=
  (Line.numbered text).foldlM (fun d (line, content) => d.readLine line content) empty

end NetworkDraft

/-! ## The network -/

namespace NetworkDraft

variable [Scalar α] (d : NetworkDraft)

/-- Accept a draft with a block for each variable of a catalog. -/
def checkBlocks (c : Catalog) : Except (SpecError α) Unit :=
  match c.placed.find? fun v => !d.blocks.any (·.child == v.index) with
  | some v => .error (.missingTable v.name)
  | none => .ok ()

/-- The network that has been read. -/
def network (settings : Settings α) : Except (SpecError α) (Network α) := do
  if d.vars.isEmpty then .error .noVariables
  else
    let c ← Catalog.ofVariables d.vars settings.maxAssignments
    d.checkBlocks c
    let nodes ← d.blocks.reverse.mapM fun b => b.node c settings
    Network.ofNodes c nodes

end NetworkDraft

variable [Scalar α]

/-- The network that a text describes. -/
def Network.ofText (settings : Settings α) (text : String) : Except (SpecError α) (Network α) :=
  (NetworkDraft.read text).bind fun d => d.network settings

/-- A distribution with other names, if there is one for each variable. -/
def Distribution.rename (d : Distribution α) (names : Option (List String)) :
    Except (SpecError α) (Distribution α) :=
  match names with
  | none => .ok d
  | some names =>
    if names.length = d.catalog.vars.length then d.withNames names else .ok d

/-- The joint distribution of the network that a text describes, perhaps with
    other names. -/
def Distribution.ofNetwork (settings : Settings α) (names : Option (List String))
    (text : String) : Except (SpecError α) (Distribution α) := do
  let n ← Network.ofText settings text
  let d ← n.expand settings
  d.rename names

end JointProb
