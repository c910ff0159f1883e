/-
  JointProb — JSON values.

  Numbers and strings stay as they are written: what they denote, and whether
  they denote anything, is asked only where a value is used.

  * `Json.Number.value?` is the number that a scalar can hold, read with a
    significand of 64 bits;
  * `Json.Piece.text?` is the text of a string, unless it has half a surrogate
    pair;
  * `Json.Value.record?` are the values of known fields of an object or an array.
-/
import JointProb.Scalar.Basic
import JointProb.Text.Numeral

namespace JointProb.Json

/-! ## Numbers -/

/-- A number as written: a sign, digits in front of a point, digits behind it,
    and an exponent. -/
structure Number where
  negative : Bool
  whole : List Char
  fraction : List Char
  exponent : Option Int
deriving DecidableEq, Repr

/-- A number with digits appended while it fits a word, and the digits that
    are left. -/
def takeDigits (n : Nat) : List Char → Nat × List Char
  | [] => (n, [])
  | d :: ds =>
    let m := 10 * n + (d.toNat - '0'.toNat)
    if m < Text.wordLimit then takeDigits m ds else (n, d :: ds)

namespace Number

variable (n : Number)

/-- A significand that fits a word and a power of ten.  Digits that do not fit
    are dropped; in front of the point they still count as places. -/
def parts : Nat × Int :=
  let (m, places) := takeDigits 0 n.whole
  let (m, dropped) := takeDigits m n.fraction
  (m, (places.length : Int) - (n.fraction.length - dropped.length : Nat) + n.exponent.getD 0)

/-- The natural number that is written as such. -/
def natural? : Option Nat :=
  if n.negative ∨ ¬ n.fraction.isEmpty ∨ n.exponent.isSome then none
  else
    match takeDigits 0 n.whole with
    | (m, []) => some m
    | _ => none

variable {α : Type} [Scalar α]

/-- A power of ten. -/
def power (k : Nat) : α := OfScientific.ofScientific 1 false k

/-- The largest power of ten that a number is scaled by at once. -/
def maxPower : Nat := 308

/-- A number divided by `10^k`, in steps of the largest power. -/
def scaleDown (x : α) (k : Nat) : α :=
  if k ≤ maxPower then x / power k
  else if x == 0 then x
  else scaleDown (x / power maxPower) (k - maxPower)
termination_by k
decreasing_by
  simp only [maxPower] at *
  omega

/-- A number times a power of ten, if that is finite. -/
def scale? (x : α) (exponent : Int) : Option α :=
  if exponent < 0 then some (scaleDown x exponent.natAbs)
  else if exponent.natAbs ≤ maxPower then
    let y := x * power exponent.natAbs
    if Scalar.isFinite y then some y else none
  else if x == 0 then some x
  else none

/-- The number denoted, if a scalar can hold it. -/
def value? : Option α :=
  let (m, e) := n.parts
  (scale? (OfScientific.ofScientific m false 0) e).map fun x => if n.negative then -x else x

end Number

/-! ## Strings -/

/-- A piece of a string: a character, or 16 bits given by number. -/
inductive Piece where
  | char (c : Char)
  | unit (n : Nat)
deriving DecidableEq, Repr

/-- The text of pieces; halves of a surrogate pair must stand together. -/
def Piece.text? : List Piece → Option (List Char)
  | [] => some []
  | .char c :: ps => (text? ps).map (c :: ·)
  | .unit n :: ps =>
    if n < 0xD800 ∨ 0xE000 ≤ n then (text? ps).map (Char.ofNat n :: ·)
    else if 0xDC00 ≤ n then none
    else
      match ps with
      | .unit m :: ps =>
        if 0xDC00 ≤ m ∧ m < 0xE000 then
          (text? ps).map (Char.ofNat (0x10000 + (n - 0xD800) * 0x400 + (m - 0xDC00)) :: ·)
        else none
      | _ => none

/-! ## Values -/

/-- A JSON value. -/
inductive Value where
  | null
  | bool (b : Bool)
  | number (n : Number)
  | string (s : List Piece)
  | array (xs : List Value)
  | object (fields : List (List Piece × Value))

/-- The fields of an object, by the texts of their names. -/
def fieldTexts? (fields : List (List Piece × Value)) : Option (List (String × Value)) :=
  fields.mapM fun f => (Piece.text? f.1).map fun key => (String.ofList key, f.2)

/-- The values of known fields: of an object, where each may come once and
    others do not count, or of an array, in order. -/
def Value.record? (names : List String) : Value → Option (String → Option Value)
  | .object fields =>
    match fieldTexts? fields with
    | none => none
    | some fields =>
      if names.all fun name => fields.countP (·.1 == name) ≤ 1 then
        some fun name => fields.lookup name
      else none
  | .array xs =>
    if xs.length ≤ names.length then some fun name => (names.zip xs).lookup name else none
  | _ => none

end JointProb.Json
