/-
  JointProb — specifications that list joint probabilities.

      variables: Rain, Late   # A, B and so on if there is no such line
      00: 0.6
      01: 0.1
      10: 0.12
      11: 0.18

  A pattern has a digit for each variable.  A single missing pattern has what
  is left of one; if more are missing they have nothing.

  * `TableDraft.read` takes the lines in;
  * `TableDraft.complete` fills in what is missing and scales the sum to one;
  * `Distribution.ofTable` does both.
-/
import JointProb.Distribution
import JointProb.Settings.Basic
import JointProb.Spec.Line

namespace JointProb

variable {α : Type} [Scalar α]

/-- A pattern with its probability. -/
structure TableEntry (α : Type) where
  line : Nat
  pattern : List Char
  value : α

/-- What has been read of a table. -/
structure TableDraft (α : Type) where
  header : Option (List String)
  entries : List (TableEntry α)

namespace TableDraft

/-! ## Lines -/

/-- Nothing has been read. -/
def empty : TableDraft α := ⟨none, []⟩

variable (t : TableDraft α)

/-- Whether an entry fits the earlier ones: a pattern of their length. -/
def checkLength (line : Nat) (pattern : List Char) : Except (SpecError α) Unit :=
  match t.entries with
  | [] => .ok ()
  | first :: _ =>
    if pattern.length = first.pattern.length then .ok ()
    else .error (.patternLength line first.pattern.length pattern.length)

/-- Read an entry. -/
def readEntry (line : Nat) (pattern value : List Char) : Except (SpecError α) (TableDraft α) :=
  let text := String.ofList pattern
  if pattern.isEmpty ∨ ¬ Line.isPattern pattern then .error (.invalidPattern line text)
  else
    match t.checkLength line pattern with
    | .error e => .error e
    | .ok () =>
      match Line.probability line value with
      | .error e => .error e
      | .ok p =>
        if t.entries.any (·.pattern == pattern) then .error (.repeatedPattern line text)
        else .ok { t with entries := t.entries ++ [⟨line, pattern, p⟩] }

/-- Read a line. -/
def readLine (line : Nat) (content : List Char) : Except (SpecError α) (TableDraft α) :=
  match Line.variablesHeader? content with
  | some rest =>
    match t.header with
    | some _ => .error (.malformed line .repeatedHeader)
    | none => (Line.names line rest).map fun names => { t with header := some names }
  | none =>
    match Text.cut? [':'] content with
    | none => .error (.malformed line (.noPattern (String.ofList content)))
    | some (pattern, value) => t.readEntry line (Text.trim pattern) value

/-- Read a text. -/
def read (text : String) : Except (SpecError α) (TableDraft α) :=
  (Line.numbered text).foldlM (fun t (line, content) => t.readLine line content) empty

/-! ## The distribution -/

/-- The number of digits of the patterns; a table has at least one. -/
def width : Except (SpecError α) Nat :=
  match t.entries with
  | [] => .error .noEntries
  | first :: _ => .ok first.pattern.length

/-- Names for the variables: given ones, or those of the header, if there is
    one for each digit; otherwise the default ones. -/
def chooseNames (given : Option (List String)) (width : Nat) : List String :=
  match given.or t.header with
  | some names => if names.length = width then names else defaultNames width
  | none => defaultNames width

/-- The entries by number. -/
def numbered : Except (SpecError α) (List (Nat × α)) :=
  t.entries.mapM fun e =>
    match Text.readNumeral? 2 e.pattern with
    | some i => .ok (i, e.value)
    | none => .error (.invalidPattern e.line (String.ofList e.pattern))

/-- The probabilities of all assignments; zero where there is no entry. -/
def spread (size : Nat) (cells : List (Nat × α)) : List α :=
  (List.range size).map fun i => (cells.lookup i).getD 0

/-- The same with what is left of one, or nothing, where the only missing
    entry would be. -/
def fillMissing (tolerance : α) (size : Nat) (cells : List (Nat × α)) :
    Except (SpecError α) (List α) :=
  let probs := spread size cells
  if size - cells.length = 1 then
    let sum := Weights.compensatedSum probs
    let residual := 1 - sum
    if residual < -tolerance then .error (.negativeResidual sum residual)
    else .ok <| (List.range size).map fun i =>
      (cells.lookup i).getD (Scalar.positivePart residual)
  else .ok probs

/-- The fault of a sum that cannot be scaled to one. -/
def sumFault (sum : α) : SpecError α := if 1 < sum then .sumAboveBand sum else .sumBelowBand sum

theorem length_of_fillMissing {tolerance : α} {size : Nat} {cells : List (Nat × α)}
    {probs : List α} (h : fillMissing tolerance size cells = .ok probs) : probs.length = size := by
  simp only [fillMissing] at h
  split at h
  · split at h
    · cases h
    · cases h
      simp
  · cases h
    simp [spread]

/-- The distribution over a catalog with the probabilities of the entries. -/
def fill (settings : Settings α) (catalog : Catalog) (cells : List (Nat × α)) :
    Except (SpecError α) (Distribution α) :=
  match h : fillMissing settings.tolerances.sum catalog.size cells with
  | .error e => .error e
  | .ok probs =>
    match h' : Weights.normalizeWithin settings.tolerances.normalizationBand probs with
    | .error sum => .error (sumFault sum)
    | .ok scaled =>
      .ok ⟨catalog, scaled, by
        rw [Weights.length_of_normalizeWithin h', length_of_fillMissing h]⟩

/-- The distribution that a table describes. -/
def complete (settings : Settings α) (given : Option (List String)) :
    Except (SpecError α) (Distribution α) := do
  let width ← t.width
  let catalog ← Catalog.ofNames (t.chooseNames given width) settings.maxAssignments
  let cells ← t.numbered
  fill settings catalog cells

end TableDraft

/-- The distribution that a text describes, perhaps with other names. -/
def Distribution.ofTable (settings : Settings α) (given : Option (List String)) (text : String) :
    Except (SpecError α) (Distribution α) :=
  (TableDraft.read text).bind fun t => t.complete settings given

end JointProb
