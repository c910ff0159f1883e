/-
  JointProb — cutting a text at marks.

  * `cut? mark` cuts at the first place where a mark stands, and drops it;
  * `fields` cuts at every comma and trims the pieces, `lines` cuts at every
    line feed;
  * `dropStart?` and `dropEnd?` take a known text off an end;
  * `equalUpToCase` compares ignoring the case of ASCII letters.
-/
import JointProb.Text.Blank

namespace JointProb.Text

/-- What stands in front of and behind the first mark in a text. -/
def cut? (mark : List Char) : List Char → Option (List Char × List Char)
  | [] => none
  | c :: cs =>
    if mark.isPrefixOf (c :: cs) then some ([], (c :: cs).drop mark.length)
    else (cut? mark cs).map fun (front, back) => (c :: front, back)

/-- Whether a mark stands somewhere in a text. -/
def contains (mark cs : List Char) : Bool := (cut? mark cs).isSome

/-- The pieces of a text between its commas, trimmed. -/
def fields (cs : List Char) : List (List Char) := (cs.splitOn ',').map trim

/-- The lines of a text.  A carriage return in front of a line feed stays; it
    is a blank. -/
def lines (cs : List Char) : List (List Char) := cs.splitOn '\n'

/-- The rest of a text that starts with a known one. -/
def dropStart? (start cs : List Char) : Option (List Char) :=
  if start.isPrefixOf cs then some (cs.drop start.length) else none

/-- The front of a text that ends with a known one. -/
def dropEnd? (ending cs : List Char) : Option (List Char) :=
  (dropStart? ending.reverse cs.reverse).map List.reverse

/-- Equality that ignores the case of ASCII letters. -/
def equalUpToCase (cs ds : List Char) : Bool := cs.map Char.toLower == ds.map Char.toLower

end JointProb.Text
