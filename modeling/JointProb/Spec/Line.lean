/-
  JointProb — lines of specifications.

  Both formats drop comments and blanks, list variable names after a common
  header, and write probabilities as decimal numbers between zero and one.

  * `Line.content?` is what a line says, `Line.numbered` all lines with their
    numbers;
  * `Line.variablesHeader?`, `Line.names` and `Line.probability` read the
    common parts.
-/
import JointProb.Catalog.Basic
import JointProb.Decimal.Literal

namespace JointProb.Line

open Text

variable {α : Type}

/-- A line without its comment and the blanks around it, unless nothing else
    is in it. -/
def content? (cs : List Char) : Option (List Char) :=
  let content := trim (cs.takeWhile (· != '#'))
  if content.isEmpty then none else some content

/-- The lines of a text that say something, with their numbers from one. -/
def numbered (text : String) : List (Nat × List Char) :=
  ((lines text.toList).zipIdx 1).filterMap fun (cs, line) => (content? cs).map fun c => (line, c)

/-- What follows the header `variables:`, in any case of its letters. -/
def variablesHeader? (cs : List Char) : Option (List Char) :=
  let header := "variables:".toList
  if equalUpToCase (cs.take header.length) header then some (trim (cs.drop header.length)) else none

/-- Distinct names separated by commas; empty ones do not count. -/
def names (line : Nat) (cs : List Char) : Except (SpecError α) (List String) :=
  let names := ((fields cs).filter fun n => !n.isEmpty).map String.ofList
  (checkNames line [] names).map fun _ => names

/-- A number between zero and one. -/
def probability [Scalar α] (line : Nat) (cs : List Char) : Except (SpecError α) α :=
  let value := trim cs
  match (Decimal.Literal.read? value).bind Scalar.ofLiteral? with
  | some (p : α) =>
    if Scalar.isFinite p ∧ 0 ≤ p ∧ p ≤ 1 then .ok p
    else .error (.invalidProbability line (String.ofList value))
  | none => .error (.invalidProbability line (String.ofList value))

/-- Whether a text is made of zeros and ones. -/
def isPattern (cs : List Char) : Bool := cs.all fun c => c == '0' || c == '1'

end JointProb.Line
