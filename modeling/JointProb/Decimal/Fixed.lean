/-
  JointProb — decimals with a set number of places.

  * `roundQuotient n d` is the natural number nearest to `n / d`, a tie going
    to the even neighbour;
  * `fixed p s n d` writes `± n / d`, rounded that way to `p` places.
-/

namespace JointProb.Decimal

/-- A power of ten. -/
def tenPow (n : Nat) : Nat := Nat.pow 10 n

/-- The natural number nearest to `num / den`; of two equally near ones the
    even one. -/
def roundQuotient (num den : Nat) : Nat :=
  let floor := num / den
  let rest := num % den
  if 2 * rest < den ∨ (2 * rest = den ∧ floor % 2 = 0) then floor else floor + 1

/-- The digits of `n`, with zeros in front up to a width. -/
def padded (base width n : Nat) : List Char :=
  let ds := Nat.toDigits base n
  List.replicate (width - ds.length) '0' ++ ds

/-- The number `n / 10^places` with all its places. -/
def withPoint (places n : Nat) : List Char :=
  if places = 0 then Nat.toDigits 10 n
  else Nat.toDigits 10 (n / tenPow places) ++ '.' :: padded 10 places (n % tenPow places)

/-- A sign in front of a text. -/
def signed (negative : Bool) (cs : List Char) : String :=
  String.ofList (if negative then '-' :: cs else cs)

/-- The number `± num / den` rounded to a number of places. -/
def fixed (places : Nat) (negative : Bool) (num den : Nat) : String :=
  signed negative (withPoint places (roundQuotient (num * tenPow places) den))

end JointProb.Decimal
