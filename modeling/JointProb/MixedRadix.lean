/-
  JointProb — numbers with a radix of their own at every place.

  An assignment of states to variables is a number whose digits are the
  states, the first variable most significant, each place with the number of
  its variable's states as radix.

  * `size rs` is how many numbers have their digits below the radices `rs`;
  * `value rs ds` is the number with digits `ds`, `digits rs n` the digits of
    a number;
  * `digit rs i n` is one of them, `placeValues rs` what a one counts at each
    place.
-/

namespace JointProb.MixedRadix

/-- How many numbers there are: the product of the radices. -/
def size : List Nat → Nat
  | [] => 1
  | r :: rs => r * size rs

/-- What a one counts at each place: the product of the radices after it. -/
def placeValues : List Nat → List Nat
  | [] => []
  | _ :: rs => size rs :: placeValues rs

/-- The number with given digits. -/
def value : List Nat → List Nat → Nat
  | _ :: rs, d :: ds => d * size rs + value rs ds
  | _, _ => 0

/-- The digits of a number, one for each radix. -/
def digits : List Nat → Nat → List Nat
  | [], _ => []
  | r :: rs, n => n / size rs % r :: digits rs n

/-- The digit of a number at a place; zero beyond the last place. -/
def digit : List Nat → Nat → Nat → Nat
  | [], _, _ => 0
  | r :: rs, 0, n => n / size rs % r
  | _ :: rs, i + 1, n => digit rs i n

theorem length_digits (rs : List Nat) (n : Nat) : (digits rs n).length = rs.length := by
  induction rs with
  | nil => rfl
  | cons r rs ih => simp [digits, ih]

theorem getElem?_digits (rs : List Nat) (n i : Nat) (h : i < rs.length) :
    (digits rs n)[i]? = some (digit rs i n) := by
  induction rs generalizing i with
  | nil => simp at h
  | cons r rs ih =>
    cases i with
    | zero => rfl
    | succ i => simpa [digits, digit] using ih i (by simpa using h)

end JointProb.MixedRadix
