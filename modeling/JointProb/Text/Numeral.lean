/-
  JointProb — unsigned numerals of 64 bits.

  * `readNumeral? base` reads a whole text of digits, with a plus in front if
    there is one, as a number below `2^64`.
-/

namespace JointProb.Text

/-- The numbers that fit a word are those below this one. -/
def wordLimit : Nat := Nat.pow 2 64

/-- The number that a text of digits of a base up to ten denotes: at least one
    digit, perhaps a plus in front, and a value that fits a word. -/
def readNumeral? (base : Nat) (cs : List Char) : Option Nat :=
  let ds := match cs with
    | '+' :: ds => ds
    | ds => ds
  if ds.isEmpty ∨ ¬ ds.all (fun c => c.isDigit && c.toNat - '0'.toNat < base) then none
  else
    let n := Nat.ofDigitChars base ds 0
    if n < wordLimit then some n else none

end JointProb.Text
