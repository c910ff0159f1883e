/-
  JointProb — the names of variables that have none.

  * `defaultNames_eq`: they are the letters, and after them numerals behind a
    `V`;
  * `isIdentifier_of_mem_defaultNames` and `nodup_defaultNames`: they are
    distinct identifiers, however many there are.
-/
import JointProb.Catalog.Variable
import JointProb.Proofs.Text.Char
import Mathlib.Data.List.Nodup

namespace JointProb

theorem defaultName_of_lt {i : Nat} (h : i < 26) :
    (defaultName i).toList = [Char.ofNat ('A'.toNat + i)] := by
  rw [defaultName, if_pos h, String.toList_singleton]

theorem defaultName_of_le {i : Nat} (h : 26 ≤ i) :
    (defaultName i).toList = 'V' :: Nat.toDigits 10 i := by
  rw [defaultName, if_neg (Nat.not_lt.2 h), String.toList_ofList]

theorem toNat_letter {i : Nat} (h : i < 26) : (Char.ofNat ('A'.toNat + i)).toNat = 65 + i := by
  revert i
  decide

theorem isIdentifier_defaultName (i : Nat) : isIdentifier (defaultName i) := by
  rw [isIdentifier]
  by_cases h : i < 26
  · have halpha : (Char.ofNat ('A'.toNat + i)).isAlpha := by
      rw [Text.isAlpha_iff, toNat_letter h]
      omega
    rw [defaultName_of_lt h]
    dsimp only
    rw [halpha]
    rfl
  · rw [defaultName_of_le (Nat.not_lt.1 h)]
    have hdigits : ∀ c ∈ Nat.toDigits 10 i, c.isDigit :=
      fun c hc => Nat.isDigit_of_mem_toDigits (by decide) (by decide) hc
    simp only [Bool.and_eq_true, List.all_eq_true]
    refine ⟨by decide, fun c hc => ?_⟩
    simp [Char.isAlphanum, hdigits c hc]

theorem defaultName_eq_append {i : Nat} (h : 26 ≤ i) : defaultName i = "V" ++ toString i := by
  refine String.toList_inj.1 ?_
  rw [defaultName_of_le h, String.toList_append, Nat.toString_eq_repr, Nat.toList_repr]
  rfl

/-- Letters are not followed by digits. -/
theorem letter_ne_numbered {i j : Nat} (hi : i < 26) (hj : 26 ≤ j) :
    defaultName i ≠ defaultName j := by
  intro h
  have htext := congrArg String.toList h
  rw [defaultName_of_lt hi, defaultName_of_le hj] at htext
  exact Nat.toDigits_ne_nil (List.cons.inj htext).2.symm

/-- Digits denote their number. -/
theorem eq_of_numbered {i j : Nat} (hi : 26 ≤ i) (hj : 26 ≤ j) (h : defaultName i = defaultName j) :
    i = j := by
  have htext := congrArg String.toList h
  rw [defaultName_of_le hi, defaultName_of_le hj] at htext
  have hdigits : Nat.toDigits 10 i = Nat.toDigits 10 j := (List.cons.inj htext).2
  calc
    i = Nat.ofDigitChars 10 (Nat.toDigits 10 i) 0 := Nat.ofDigitChars_ten_toDigits.symm
    _ = Nat.ofDigitChars 10 (Nat.toDigits 10 j) 0 := by rw [hdigits]
    _ = j := Nat.ofDigitChars_ten_toDigits

theorem defaultName_injective : Function.Injective defaultName := by
  intro i j h
  by_cases hi : i < 26 <;> by_cases hj : j < 26
  · have hletter := congrArg String.toList h
    rw [defaultName_of_lt hi, defaultName_of_lt hj] at hletter
    have hnat := congrArg Char.toNat (List.cons.inj hletter).1
    rw [toNat_letter hi, toNat_letter hj] at hnat
    omega
  · exact absurd h (letter_ne_numbered hi (Nat.not_lt.1 hj))
  · exact absurd h.symm (letter_ne_numbered hj (Nat.not_lt.1 hi))
  · exact eq_of_numbered (Nat.not_lt.1 hi) (Nat.not_lt.1 hj) h

/-- **The default names** are the letters, and then `V` with the position. -/
theorem defaultNames_eq (count : Nat) : defaultNames count =
    ("ABCDEFGHIJKLMNOPQRSTUVWXYZ".toList.map String.singleton).take count ++
      (List.range' 26 (count - 26)).map fun i => "V" ++ toString i := by
  have hletters : "ABCDEFGHIJKLMNOPQRSTUVWXYZ".toList.map String.singleton =
      (List.range 26).map defaultName := by decide
  have hnumbered : (List.range' 26 (count - 26)).map (fun i => "V" ++ toString i) =
      (List.range' 26 (count - 26)).map defaultName := by
    refine List.map_congr_left fun i hi => ?_
    rw [List.mem_range'_1] at hi
    rw [defaultName_eq_append hi.1]
  have hrange : List.range count = (List.range 26).take count ++ List.range' 26 (count - 26) := by
    rw [List.take_range]
    by_cases hle : count ≤ 26
    · rw [Nat.min_eq_left hle, Nat.sub_eq_zero_of_le hle, List.range'_zero, List.append_nil]
    · obtain ⟨k, rfl⟩ := Nat.exists_eq_add_of_le (Nat.le_of_not_le hle)
      rw [Nat.min_eq_right (Nat.le_of_not_le hle), Nat.add_sub_cancel_left, List.range_eq_range',
        List.range_eq_range']
      exact List.range'_append_1.symm
  rw [defaultNames, hrange, List.map_append, List.map_take, hletters, hnumbered]

example : (defaultNames 28).drop 24 = ["Y", "Z", "V26", "V27"] := by decide

@[simp] theorem length_defaultNames (n : Nat) : (defaultNames n).length = n := by
  simp [defaultNames]

theorem isIdentifier_of_mem_defaultNames {n : Nat} {name : String} (h : name ∈ defaultNames n) :
    isIdentifier name := by
  obtain ⟨i, -, rfl⟩ := List.mem_map.1 h
  exact isIdentifier_defaultName i

/-- **The default names are distinct.** -/
theorem nodup_defaultNames (n : Nat) : (defaultNames n).Nodup :=
  List.nodup_range.map defaultName_injective

end JointProb
