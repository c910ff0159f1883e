/-
  JointProb — decimal numbers as they are written in texts.

  A literal is an optional sign followed by digits with at most one point
  and at least one digit, then optionally `e` or `E`, a sign and more
  digits; or one of the words `inf`, `infinity`, `nan` in any case.

  * `Literal` is the exact value denoted: `finite s n e` is `± n · 10^e`;
  * `Literal.read?` reads a whole text and refuses everything else.
-/

namespace JointProb.Decimal

/-- A decimal number, exactly as written: a finite one is its digits, read
    as one natural number, times a power of ten. -/
inductive Literal where
  | finite (negative : Bool) (digits : Nat) (exponent : Int)
  | infinite (negative : Bool)
  | notANumber
deriving DecidableEq, Repr

namespace Literal

/-! ## Parts of a literal -/

/-- An optional sign in front of a text; `true` for a minus. -/
def splitSign : List Char → Bool × List Char
  | '-' :: cs => (true, cs)
  | '+' :: cs => (false, cs)
  | cs => (false, cs)

/-- The leading digits of a text, and the rest. -/
def splitDigits (cs : List Char) : List Char × List Char :=
  (cs.takeWhile Char.isDigit, cs.dropWhile Char.isDigit)

/-- The digits after a point, if the text goes on with one. -/
def splitFraction : List Char → List Char × List Char
  | '.' :: cs => splitDigits cs
  | cs => ([], cs)

/-- The exponent that makes up a whole text: nothing, or `e` or `E` with an
    integer of at least one digit. -/
def readExponent? : List Char → Option Int
  | [] => some 0
  | c :: cs =>
    if c = 'e' ∨ c = 'E' then
      let (negative, ds) := splitSign cs
      if ds.isEmpty ∨ ¬ ds.all Char.isDigit then none
      else
        let n : Int := Nat.ofDigitChars 10 ds 0
        some (if negative then -n else n)
    else none

/-- The number that makes up a whole text without a sign. -/
def readFinite? (negative : Bool) (cs : List Char) : Option Literal :=
  let (whole, cs) := splitDigits cs
  let (fraction, cs) := splitFraction cs
  if whole.isEmpty ∧ fraction.isEmpty then none
  else (readExponent? cs).map fun e =>
    .finite negative (Nat.ofDigitChars 10 (whole ++ fraction) 0) (e - fraction.length)

/-! ## Reading -/

/-- The literal that makes up a whole text. -/
def read? (cs : List Char) : Option Literal :=
  let (negative, rest) := splitSign cs
  let word := rest.map Char.toLower
  if word = "inf".toList ∨ word = "infinity".toList then some (.infinite negative)
  else if word = "nan".toList then some .notANumber
  else readFinite? negative rest

end Literal

end JointProb.Decimal
