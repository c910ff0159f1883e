/-
  JointProb — runs of characters of one kind.

  * `takeWhile_append` and `dropWhile_append`: a run ends where something else
    follows.
-/
import Mathlib.Data.List.TakeWhile

namespace JointProb.Text

variable {β : Type} {p : β → Bool} {xs ys : List β}

theorem takeWhile_eq_nil (hys : ∀ y ∈ ys.head?, p y = false) : ys.takeWhile p = [] := by
  cases ys with
  | nil => rfl
  | cons y ys => simp [hys y rfl]

theorem dropWhile_eq_self (hys : ∀ y ∈ ys.head?, p y = false) : ys.dropWhile p = ys := by
  cases ys with
  | nil => rfl
  | cons y ys => simp [hys y rfl]

/-- A run ends where something else follows. -/
theorem takeWhile_append (hxs : ∀ x ∈ xs, p x) (hys : ∀ y ∈ ys.head?, p y = false) :
    (xs ++ ys).takeWhile p = xs := by
  rw [List.takeWhile_append_of_pos hxs, takeWhile_eq_nil hys, List.append_nil]

/-- What follows a run is left after it. -/
theorem dropWhile_append (hxs : ∀ x ∈ xs, p x) (hys : ∀ y ∈ ys.head?, p y = false) :
    (xs ++ ys).dropWhile p = ys := by
  rw [List.dropWhile_append_of_pos hxs, dropWhile_eq_self hys]

end JointProb.Text
