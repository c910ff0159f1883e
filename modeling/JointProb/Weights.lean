/-
  JointProb — lists of weights.

  Tables of probabilities are sums of many small numbers, so sums carry along
  what rounding lost.

  * `compensatedSum` is that sum; in exact arithmetic it is the plain one;
  * `normalize?` scales weights to sum to one, `normalizeWithin` does so only
    if their sum is near one already;
  * `cumulative` and `firstAbove?` turn weights into a table to draw from.
-/
import JointProb.Scalar.Basic

namespace JointProb.Weights

variable {α : Type} [Scalar α]

/-! ## Sums -/

/-- A running sum, and what has been lost to rounding so far. -/
structure Running (α : Type) where
  sum : α
  lost : α

/-- A running sum with one more term.  The smaller of the two operands is the
    one that loses digits. -/
def Running.add (r : Running α) (w : α) : Running α :=
  let sum := r.sum + w
  let lost := if Scalar.abs w ≤ Scalar.abs r.sum then (r.sum - sum) + w else (w - sum) + r.sum
  ⟨sum, r.lost + lost⟩

/-- The sum of weights with compensation for rounding. -/
def compensatedSum (ws : List α) : α :=
  let r := ws.foldl Running.add ⟨0, 0⟩
  r.sum + r.lost

/-- Whether two numbers differ by at most a tolerance. -/
def near (tolerance x y : α) : Bool := Scalar.abs (x - y) ≤ tolerance

/-! ## Scaling to one -/

/-- Whether a sum can be scaled to one. -/
def scalable (total : α) : Bool := Scalar.isFinite total && !decide (total ≤ 0)

/-- Weights times the inverse of a total. -/
def rescale (total : α) (ws : List α) : List α :=
  let factor := 1 / total
  ws.map (· * factor)

/-- Weights scaled to sum to one, if their sum is positive and finite. -/
def normalize? (ws : List α) : Option (List α) :=
  let total := compensatedSum ws
  if scalable total then some (rescale total ws) else none

/-- Weights with a sum `S` scaled to sum to one, if `|S - 1| / S` is at most a
    band; otherwise their sum. -/
def normalizeWithin (band : α) (ws : List α) : Except α (List α) :=
  let total := compensatedSum ws
  if scalable total && !decide (band < Scalar.abs (total - 1) / total) then
    .ok (rescale total ws)
  else .error total

theorem length_rescale (total : α) (ws : List α) : (rescale total ws).length = ws.length := by
  simp [rescale]

theorem length_of_normalizeWithin {band : α} {ws vs : List α}
    (h : normalizeWithin band ws = .ok vs) : vs.length = ws.length := by
  simp only [normalizeWithin] at h
  split at h
  · cases h
    exact length_rescale _ _
  · cases h

/-! ## Drawing -/

/-- The running sums of weights from a start, where a negative weight counts
    as zero. -/
def cumulativeFrom (start : α) : List α → List α
  | [] => []
  | w :: ws =>
    let next := start + Scalar.positivePart w
    next :: cumulativeFrom next ws

/-- The running sums of weights. -/
def cumulative (ws : List α) : List α := cumulativeFrom 0 ws

/-- The number of leading elements with a property, found by halving the
    `size` elements after the first `base`: the property must not come back
    once it fails. -/
def bisect {β : Type} (p : β → Bool) (xs : List β) (size base : Nat) : Nat :=
  if size ≤ 1 then base + if xs[base]?.any p then 1 else 0
  else
    let half := size / 2
    bisect p xs (size - half) (if xs[base + half]?.any p then base + half else base)
termination_by size

/-- The index of the first running sum above a target. -/
def firstAbove? (sums : List α) (target : α) : Option Nat :=
  let i := bisect (fun c => c ≤ target) sums sums.length 0
  if i < sums.length then some i else none

end JointProb.Weights
