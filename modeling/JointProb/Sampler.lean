/-
  JointProb — drawing assignments.

  A distribution is drawn from by its running sums: a number between zero and
  their last one falls above some of them and below the others.

  * `Sampler.index` is the assignment that a number in the unit interval
    draws, never one without probability;
  * `unitOfWord` makes such a number from 64 random bits.
-/
import JointProb.Distribution

namespace JointProb

variable {α : Type} [Scalar α]

/-- A number from zero to less than one, the 53 high bits of a word as its
    binary digits. -/
def unitOfWord (word : Nat) : α :=
  OfScientific.ofScientific (word / Nat.pow 2 11) false 0 /
    OfScientific.ofScientific (Nat.pow 2 53) false 0

/-- The running sums of a distribution, and the last assignment that has a
    positive probability. -/
structure Sampler (α : Type) where
  catalog : Catalog
  sums : List α
  lastPositive : Nat

/-- The sampler of a distribution. -/
def Distribution.sampler (d : Distribution α) : Sampler α where
  catalog := d.catalog
  sums := Weights.cumulative d.probs
  lastPositive := d.probs.length - 1 - (d.probs.reverse.findIdx? (0 < ·)).getD (d.probs.length - 1)

namespace Sampler

variable (s : Sampler α)

/-- The assignment that a number of the unit interval draws; rounding may take
    it past all sums. -/
def index (u : α) : Nat :=
  let total := s.sums.getLast?.getD 0
  (Weights.firstAbove? s.sums (u * total)).getD s.lastPositive

/-- The states of the assignment that a number draws. -/
def draw (u : α) : List Nat := s.catalog.decode (s.index u)

end Sampler

/-- The first numbers of a sequence that repeats some words over and over. -/
def cycled (words : List Nat) (n : Nat) : List Nat :=
  (List.range n).filterMap fun i => words[i % words.length]?

/-- Assignments drawn from a distribution, one for each word. -/
def Distribution.sample (d : Distribution α) (words : List Nat) : List (List Nat) :=
  let s := d.sampler
  words.map fun w => s.draw (unitOfWord w)

end JointProb
