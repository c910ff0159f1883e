/-
  JointProb — patterns of zeros and ones.

  * `Bits.number` is the number of an assignment of variables with two states,
    and `Bits.text` the pattern of a table that is about it;
  * `Bits.readNumeral?_text`: as a numeral the pattern denotes the number;
  * `Bits.padded_number`: written in binary the number is the pattern;
  * `Bits.map_number_all`: numbered in order, the patterns of a width have the
    numbers below its power of two.
-/
import JointProb.Proofs.Decimal.Fixed
import JointProb.Proofs.MixedRadix
import JointProb.Spec.Line
import Mathlib.Data.List.Nodup
import Mathlib.Tactic.Ring

namespace JointProb

/-- An assignment of variables with two states. -/
abbrev Bits : Type := List Bool

namespace Bits

/-- The states. -/
def states (b : Bits) : List Nat := b.map Bool.toNat

def digit (x : Bool) : Char := if x then '1' else '0'

/-- The pattern in the text of a table. -/
def text (b : Bits) : List Char := b.map digit

/-- The number of the assignment. -/
def number (b : Bits) : Nat := MixedRadix.value (List.replicate b.length 2) b.states

/-- All assignments of a number of variables, in order. -/
def all : Nat → List Bits
  | 0 => [[]]
  | n + 1 => (all n).map (false :: ·) ++ (all n).map (true :: ·)

/-! ## Assignments of a width -/

theorem mem_all {n : Nat} {b : Bits} : b ∈ all n ↔ b.length = n := by
  induction n generalizing b with
  | zero => simp [all]
  | succ n ih =>
    cases b with
    | nil => simp [all]
    | cons x b => cases x <;> simp [all, ih]

@[simp] theorem length_states (b : Bits) : b.states.length = b.length := by simp [states]

theorem size_replicate (n : Nat) : MixedRadix.size (List.replicate n 2) = 2 ^ n := by
  rw [MixedRadix.size_eq_prod, List.prod_replicate]

theorem below_states (b : Bits) : MixedRadix.Below (List.replicate b.length 2) b.states := by
  induction b with
  | nil => exact .nil
  | cons x b ih => exact .cons (Bool.toNat_lt x) ih

theorem number_lt (b : Bits) : b.number < 2 ^ b.length :=
  size_replicate b.length ▸ MixedRadix.value_lt_size b.below_states

theorem number_cons (x : Bool) (b : Bits) :
    number (x :: b) = x.toNat * 2 ^ b.length + b.number := by
  rw [← size_replicate]
  rfl

/-- **Numbered in order.** -/
theorem map_number_all (n : Nat) : (all n).map number = List.range (2 ^ n) := by
  induction n with
  | zero => rfl
  | succ n ih =>
    have hlow : ((all n).map (false :: ·)).map number = List.range (2 ^ n) := by
      rw [List.map_map, ← ih]
      refine List.map_congr_left fun b _ => ?_
      simp [number_cons]
    have hhigh : ((all n).map (true :: ·)).map number =
        (List.range (2 ^ n)).map fun i => 2 ^ n + i := by
      rw [List.map_map, ← ih, List.map_map]
      refine List.map_congr_left fun b hb => ?_
      simp [number_cons, mem_all.1 hb]
    rw [all, List.map_append, hlow, hhigh, Nat.pow_succ, Nat.mul_two, List.range_add]

theorem length_all (n : Nat) : (all n).length = 2 ^ n := by
  rw [← List.length_map number, map_number_all, List.length_range]

theorem nodup_all (n : Nat) : (all n).Nodup := by
  have h : ((all n).map number).Nodup := map_number_all n ▸ List.nodup_range
  exact h.of_map number

/-- Different assignments of one width have different numbers. -/
theorem number_inj {b c : Bits} (h : b.length = c.length) (hn : b.number = c.number) : b = c := by
  have hb := MixedRadix.digits_value b.below_states
  have hc := MixedRadix.digits_value c.below_states
  rw [number, number, h] at hn
  rw [h, hn, hc] at hb
  refine List.map_injective_iff.2 (fun x y hxy => ?_) hb.symm
  cases x <;> cases y <;> simp_all

/-- An assignment stands at its number. -/
theorem getElem?_all (b : Bits) : (all b.length)[b.number]? = some b := by
  have hlt : b.number < (all b.length).length := length_all b.length ▸ b.number_lt
  have hnumber : ((all b.length)[b.number]).number = b.number := by
    have hrange : ((all b.length).map number)[b.number]? = some b.number := by
      rw [map_number_all, List.getElem?_range b.number_lt]
    simpa [hlt] using hrange
  rw [List.getElem?_eq_getElem hlt]
  exact congrArg some (number_inj (mem_all.1 (List.getElem_mem hlt)) hnumber)

/-! ## Their texts -/

@[simp] theorem length_text (b : Bits) : b.text.length = b.length := by simp [text]

theorem text_eq_nil {b : Bits} : b.text = [] ↔ b = [] := by simp [text]

theorem text_injective : Function.Injective text := by
  refine List.map_injective_iff.2 fun x y h => ?_
  cases x <;> cases y <;> simp_all [digit]

theorem isPattern_text (b : Bits) : Line.isPattern b.text := by
  rw [Line.isPattern, List.all_eq_true]
  intro c hc
  obtain ⟨x, -, rfl⟩ := List.mem_map.1 hc
  cases x <;> rfl

theorem mem_text {b : Bits} {c : Char} (h : c ∈ b.text) : c = '0' ∨ c = '1' := by
  obtain ⟨x, -, rfl⟩ := List.mem_map.1 h
  cases x
  · exact .inl rfl
  · exact .inr rfl

theorem ofDigitChars_text (b : Bits) (n : Nat) :
    Nat.ofDigitChars 2 b.text n = n * 2 ^ b.length + b.number := by
  induction b generalizing n with
  | nil => simp [text, number, MixedRadix.value]
  | cons x b ih =>
    have hdigit : (digit x).toNat - '0'.toNat = x.toNat := by cases x <;> rfl
    rw [text, List.map_cons, Nat.ofDigitChars_cons, hdigit, number_cons]
    rw [text] at ih
    rw [ih, List.length_cons, Nat.pow_succ]
    ring

/-- **As a numeral the pattern denotes the number.** -/
theorem readNumeral?_text {b : Bits} (hne : b ≠ []) (hb : 2 ^ b.length ≤ Text.wordLimit) :
    Text.readNumeral? 2 b.text = some b.number := by
  have hnumber : Nat.ofDigitChars 2 b.text 0 = b.number := by
    rw [ofDigitChars_text, Nat.zero_mul, Nat.zero_add]
  rw [← hnumber]
  refine Text.readNumeral?_eq_some (mt text_eq_nil.1 hne) (fun c hc => ?_) ?_
  · rcases mem_text hc with rfl | rfl <;> decide
  · rw [hnumber]
    exact b.number_lt.trans_le hb

/-- Zeros and ones are the pattern of an assignment. -/
theorem exists_text_eq {cs : List Char} (h : ∀ c ∈ cs, c = '0' ∨ c = '1') :
    ∃ b : Bits, b.text = cs := by
  have hdigit : ∀ c ∈ cs, (digit ∘ (· == '1')) c = c := by
    intro c hc
    rcases h c hc with rfl | rfl <;> rfl
  refine ⟨cs.map (· == '1'), ?_⟩
  rw [text, List.map_map, List.map_congr_left hdigit, List.map_id']

theorem mem_toDigits_two {n : Nat} {c : Char} (h : c ∈ Nat.toDigits 2 n) : c = '0' ∨ c = '1' := by
  have hlast {m : Nat} (hm : m < 2) : m.digitChar = '0' ∨ m.digitChar = '1' := by
    obtain rfl | rfl : m = 0 ∨ m = 1 := by omega
    · exact .inl rfl
    · exact .inr rfl
  induction n using Nat.strong_induction_on with
  | _ n ih =>
    rw [Nat.toDigits_eq_if (by decide)] at h
    split_ifs at h with hn
    · rw [List.mem_singleton.1 h]
      exact hlast hn
    · rw [List.mem_append, List.mem_singleton] at h
      rcases h with h | rfl
      · exact ih (n / 2) (by omega) h
      · exact hlast (Nat.mod_lt n (by decide))

/-- **Written in binary the number is the pattern.** -/
theorem padded_number {b : Bits} (hne : b ≠ []) :
    Decimal.padded 2 b.length b.number = b.text := by
  have hbits : ∀ c ∈ Decimal.padded 2 b.length b.number, c = '0' ∨ c = '1' := by
    intro c hc
    rcases List.mem_append.1 hc with hc | hc
    · exact .inl (List.eq_of_mem_replicate hc)
    · exact mem_toDigits_two hc
  obtain ⟨a, ha⟩ := exists_text_eq hbits
  have hlength : a.length = b.length := by
    have := Decimal.length_padded (by decide : 1 < 2) (List.length_pos_of_ne_nil hne) b.number_lt
    rwa [← ha, text, List.length_map] at this
  have hnumber : a.number = b.number := by
    have := @Decimal.ofDigitChars_padded 2 b.length b.number (by decide) (by decide)
    rwa [← ha, ofDigitChars_text, Nat.zero_mul, Nat.zero_add] at this
  rw [← ha, number_inj hlength hnumber]

end Bits

end JointProb
