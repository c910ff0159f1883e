/-
  JointProb — kinds of characters, as ranges of numbers.

  Two kinds have no character in common if their ranges do not meet, which is
  arithmetic.
-/
import Mathlib.Data.UInt
import JointProb.Text.Blank

namespace JointProb.Text

variable {c : Char}

theorem isDigit_iff : c.isDigit ↔ 48 ≤ c.toNat ∧ c.toNat ≤ 57 := by
  simp only [Char.isDigit, Bool.and_eq_true, decide_eq_true_eq, UInt32.le_iff_toNat_le, ge_iff_le]
  exact Iff.rfl

theorem isUpper_iff : c.isUpper ↔ 65 ≤ c.toNat ∧ c.toNat ≤ 90 := by
  unfold Char.isUpper
  simp only [decide_eq_true_eq, UInt32.le_iff_toNat_le, ge_iff_le]
  exact Iff.rfl

theorem isLower_iff : c.isLower ↔ 97 ≤ c.toNat ∧ c.toNat ≤ 122 := by
  unfold Char.isLower
  simp only [Bool.and_eq_true, decide_eq_true_eq, UInt32.le_iff_toNat_le, ge_iff_le]
  exact Iff.rfl

theorem isAlpha_iff : c.isAlpha ↔
    65 ≤ c.toNat ∧ c.toNat ≤ 90 ∨ 97 ≤ c.toNat ∧ c.toNat ≤ 122 := by
  unfold Char.isAlpha
  rw [Bool.or_eq_true, isUpper_iff, isLower_iff]

theorem isAlphanum_iff : c.isAlphanum ↔
    (65 ≤ c.toNat ∧ c.toNat ≤ 90 ∨ 97 ≤ c.toNat ∧ c.toNat ≤ 122) ∨
      48 ≤ c.toNat ∧ c.toNat ≤ 57 := by
  simp [Char.isAlphanum, isAlpha_iff, isDigit_iff]

/-- The printed characters of ASCII are not blank. -/
theorem isBlank_eq_false (hlow : 33 ≤ c.toNat) (hhigh : c.toNat ≤ 126) : isBlank c = false := by
  have hranges : ∀ r ∈ blankRanges, r.2 < 33 ∨ 126 < r.1 := by decide
  rw [isBlank, List.any_eq_false]
  intro r hr
  have hrange := hranges r hr
  simp only [Bool.and_eq_true, decide_eq_true_eq]
  omega

theorem toLower_eq_self (h : c.isUpper = false) : c.toLower = c := by
  unfold Char.isUpper at h
  unfold Char.toLower
  exact dif_neg (of_decide_eq_false h)

theorem isLower_toLower (h : c.isUpper) : c.toLower.isLower := by
  have hrange : c.val ≥ 'A'.val ∧ c.val ≤ 'Z'.val := by
    unfold Char.isUpper at h
    exact of_decide_eq_true h
  obtain ⟨hlow, hhigh⟩ := isUpper_iff.1 h
  change 65 ≤ c.val.toNat at hlow
  change c.val.toNat ≤ 90 at hhigh
  have hnat : c.toLower.toNat = c.val.toNat + 32 := by
    unfold Char.toLower
    rw [dif_pos hrange]
    change (c.val + 32).toNat = _
    rw [UInt32.toNat_add]
    change (c.val.toNat + 32) % 2 ^ 32 = _
    omega
  rw [isLower_iff, hnat]
  omega

/-- Only a small letter is the lower case of another character. -/
theorem eq_of_toLower_eq {d : Char} (h : c.toLower = d) (hd : d.isLower = false) : c = d := by
  by_cases hc : c.isUpper
  · rw [← h, isLower_toLower hc] at hd
    cases hd
  · rwa [toLower_eq_self (by simpa using hc)] at h

theorem isAlphanum_of_toLower (h : c.toLower.isAlphanum) : c.isAlphanum := by
  by_cases hc : c.isUpper
  · exact isAlphanum_iff.2 (.inl (.inl (isUpper_iff.1 hc)))
  · rwa [toLower_eq_self (by simpa using hc)] at h

end JointProb.Text
