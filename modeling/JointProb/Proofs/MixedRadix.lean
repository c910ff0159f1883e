/-
  JointProb — laws of numbers with a radix of their own at every place.

  * `Below rs ds` says that `ds` are digits below the radices `rs`;
  * `digits_value` and `value_digits`: on these digits and the numbers below
    `size rs`, writing and reading a number are inverse to each other;
  * `value_lt_value_iff`: numbers are in the order of their digits, the first
    place first;
  * `forward` is the number with given digits taken in from the first place on,
    `backward` the digits of a number given off from the last place on:
    `forward_eq` and `backward_eq`;
  * `mulWord?` and `addWord?` compute with words and fail when a result does
    not fit one; `wordPlaceValues?` and `wordValue?` are the place values and
    the number of some digits computed with them, and fail for no digits whose
    radices have a product that fits a word.
-/
import JointProb.MixedRadix
import JointProb.Text.Numeral
import Mathlib.Algebra.BigOperators.Ring.List
import Mathlib.Algebra.Order.Ring.Nat
import Mathlib.Data.List.Forall2
import Mathlib.Tactic.Ring

namespace JointProb.MixedRadix

/-- Digits below given radices, one for each. -/
def Below (rs ds : List Nat) : Prop := List.Forall₂ (· < ·) ds rs

instance (rs ds : List Nat) : Decidable (Below rs ds) :=
  inferInstanceAs (Decidable (List.Forall₂ (· < ·) ds rs))

@[simp] theorem below_nil {ds : List Nat} : Below [] ds ↔ ds = [] := by simp [Below]

@[simp] theorem below_cons {r : Nat} {rs ds : List Nat} :
    Below (r :: rs) ds ↔ ∃ d es, d < r ∧ Below rs es ∧ ds = d :: es := by
  simp [Below, List.forall₂_cons_right_iff]

theorem Below.length_eq {rs ds : List Nat} (h : Below rs ds) : ds.length = rs.length :=
  List.Forall₂.length_eq h

/-! ## Sizes -/

theorem size_eq_prod (rs : List Nat) : size rs = rs.prod := by
  induction rs with
  | nil => rfl
  | cons r rs ih => simp [size, ih]

theorem size_pos {rs : List Nat} (h : ∀ r ∈ rs, 0 < r) : 0 < size rs := by
  induction rs with
  | nil => exact Nat.one_pos
  | cons r rs ih =>
    exact Nat.mul_pos (h r (by simp)) (ih fun x hx => h x (List.mem_cons_of_mem r hx))

theorem pos_of_size_pos {rs : List Nat} (h : 0 < size rs) : ∀ r ∈ rs, 0 < r := by
  rw [size_eq_prod] at h
  exact fun r hr => Nat.pos_of_ne_zero fun h0 => Nat.ne_of_gt h (List.prod_eq_zero (h0 ▸ hr))

/-! ## Writing and reading -/

theorem value_lt_size {rs ds : List Nat} (h : Below rs ds) : value rs ds < size rs := by
  induction rs generalizing ds with
  | nil => simp_all [value, size]
  | cons r rs ih =>
    obtain ⟨d, es, hd, hes, rfl⟩ := below_cons.1 h
    calc d * size rs + value rs es < d * size rs + size rs := Nat.add_lt_add_left (ih hes) _
      _ = (d + 1) * size rs := (Nat.succ_mul d _).symm
      _ ≤ r * size rs := Nat.mul_le_mul_right _ hd

/-- Whole turns of all places leave the digits as they are. -/
theorem digits_mul_add (rs : List Nat) (k n : Nat) :
    digits rs (k * size rs + n) = digits rs n := by
  induction rs generalizing k with
  | nil => rfl
  | cons r rs ih =>
    have hk : k * size (r :: rs) + n = k * r * size rs + n := by rw [size, Nat.mul_assoc]
    rw [digits, digits, hk, ih]
    congr 1
    rcases Nat.eq_zero_or_pos (size rs) with h0 | hpos
    · simp [h0]
    · rw [Nat.add_comm, Nat.add_mul_div_right _ _ hpos, Nat.add_mul_mod_self_right]

theorem digits_mod_size (rs : List Nat) (n : Nat) : digits rs (n % size rs) = digits rs n := by
  conv_rhs => rw [← Nat.div_add_mod' n (size rs), digits_mul_add]

/-- **Reading what was written.** -/
theorem digits_value {rs ds : List Nat} (h : Below rs ds) : digits rs (value rs ds) = ds := by
  induction rs generalizing ds with
  | nil => simp_all [digits]
  | cons r rs ih =>
    obtain ⟨d, es, hd, hes, rfl⟩ := below_cons.1 h
    have hlt := value_lt_size hes
    have hpos : 0 < size rs := Nat.zero_lt_of_lt hlt
    rw [value, digits, digits_mul_add, ih hes, Nat.add_comm, Nat.add_mul_div_right _ _ hpos,
      Nat.div_eq_of_lt hlt, Nat.zero_add, Nat.mod_eq_of_lt hd]

/-- Numbers are told apart by their digits. -/
theorem eq_of_value_eq {rs ds es : List Nat} (hd : Below rs ds) (he : Below rs es)
    (h : value rs ds = value rs es) : ds = es := by
  rw [← digits_value hd, h, digits_value he]

theorem below_digits {rs : List Nat} {n : Nat} (h : n < size rs) : Below rs (digits rs n) := by
  have hpos := pos_of_size_pos (Nat.zero_lt_of_lt h)
  clear h
  induction rs with
  | nil => simp [digits]
  | cons r rs ih =>
    exact .cons (Nat.mod_lt _ (hpos r (by simp)))
      (ih fun x hx => hpos x (List.mem_cons_of_mem r hx))

/-- **Writing what was read.** -/
theorem value_digits {rs : List Nat} {n : Nat} (h : n < size rs) : value rs (digits rs n) = n := by
  induction rs generalizing n with
  | nil => simp_all [value, size]
  | cons r rs ih =>
    have hpos : 0 < size rs := Nat.pos_of_mul_pos_left (Nat.zero_lt_of_lt h)
    have hd : n / size rs < r := (Nat.div_lt_iff_lt_mul hpos).2 h
    rw [digits, value, Nat.mod_eq_of_lt hd, ← digits_mod_size, ih (Nat.mod_lt n hpos),
      Nat.div_add_mod']

/-- **Numbers are in the order of their digits.** -/
theorem value_lt_value_iff {rs ds es : List Nat} (hd : Below rs ds) (he : Below rs es) :
    value rs ds < value rs es ↔ ds < es := by
  induction rs generalizing ds es with
  | nil => simp_all
  | cons r rs ih =>
    obtain ⟨d, ds, -, hds, rfl⟩ := below_cons.1 hd
    obtain ⟨e, es, -, hes, rfl⟩ := below_cons.1 he
    have hv := value_lt_size hds
    have hw := value_lt_size hes
    rw [List.cons_lt_cons_iff, value, value]
    rcases lt_trichotomy d e with hlt | rfl | hgt
    · -- a smaller leading digit outweighs all the others
      have hle : (d + 1) * size rs ≤ e * size rs := Nat.mul_le_mul_right _ hlt
      rw [Nat.succ_mul] at hle
      exact iff_of_true (by omega) (Or.inl hlt)
    · simp [ih hds hes]
    · have hle : (e + 1) * size rs ≤ d * size rs := Nat.mul_le_mul_right _ hgt
      rw [Nat.succ_mul] at hle
      exact iff_of_false (by omega) (by omega)

/-! ## Single digits -/

theorem length_placeValues (rs : List Nat) : (placeValues rs).length = rs.length := by
  induction rs with
  | nil => rfl
  | cons r rs ih => rw [placeValues, List.length_cons, ih, List.length_cons]

/-- Place values divide the size, so that none of them is zero if the size is
    not. -/
theorem dvd_size_of_mem_placeValues {rs : List Nat} {p : Nat} (h : p ∈ placeValues rs) :
    p ∣ size rs := by
  induction rs with
  | nil => exact absurd h List.not_mem_nil
  | cons r rs ih =>
    rcases List.mem_cons.1 h with rfl | hp
    · exact Nat.dvd_mul_left _ _
    · exact (ih hp).mul_left _

/-- A digit is what is left of the number of its units by its radix. -/
theorem digit_eq {rs : List Nat} {i p r : Nat} (n : Nat) (hp : (placeValues rs)[i]? = some p)
    (hr : rs[i]? = some r) : digit rs i n = n / p % r := by
  induction rs generalizing i with
  | nil => simp at hr
  | cons s rs ih =>
    cases i with
    | zero => simp_all [placeValues, digit]
    | succ i => exact ih (by simpa [placeValues] using hp) (by simpa using hr)

/-- Digits are below their radices. -/
theorem digit_lt {rs : List Nat} {i n r : Nat} (hn : n < size rs) (hr : rs[i]? = some r) :
    digit rs i n < r := by
  obtain ⟨hi, rfl⟩ := List.getElem?_eq_some_iff.1 hr
  have hbelow := below_digits hn
  have hlt : i < (digits rs n).length := hbelow.length_eq ▸ hi
  have hdigit : (digits rs n)[i] = digit rs i n := by
    have hget := getElem?_digits rs n i hi
    rwa [List.getElem?_eq_getElem hlt, Option.some.injEq] at hget
  exact hdigit ▸ (List.forall₂_iff_get.1 hbelow).2 i hlt hi

/-! ## One place after the other -/

/-- The number with given digits, taken in one after the other: each moves those
    in front of it up by a place. -/
def forward (rs ds : List Nat) : Nat := (rs.zip ds).foldl (fun n (r, d) => n * r + d) 0

/-- The digits of a number, given off from the last place to the first, and what
    is left of the number in front of them. -/
def backward (rs : List Nat) (n : Nat) : Nat × List Nat :=
  rs.foldr (fun r (rest, ds) => (rest / r, rest % r :: ds)) (n, [])

theorem foldl_forward {rs ds : List Nat} (h : ds.length = rs.length) (n : Nat) :
    (rs.zip ds).foldl (fun n (r, d) => n * r + d) n = n * size rs + value rs ds := by
  induction rs generalizing ds n with
  | nil => simp_all [size, value]
  | cons r rs ih =>
    obtain ⟨d, ds, rfl⟩ := List.exists_cons_of_length_eq_add_one h
    rw [List.zip_cons_cons, List.foldl_cons, ih (by simpa using h), size, value]
    ring

/-- **Taken in from the first place on**, digits give their number. -/
theorem forward_eq {rs ds : List Nat} (h : ds.length = rs.length) :
    forward rs ds = value rs ds := by
  rw [forward, foldl_forward h, Nat.zero_mul, Nat.zero_add]

/-- **Given off from the last place on**, the digits of a number are the same. -/
theorem backward_eq (rs : List Nat) (n : Nat) : backward rs n = (n / size rs, digits rs n) := by
  induction rs with
  | nil => simp [backward, size, digits]
  | cons r rs ih =>
    have hstep : backward (r :: rs) n =
        ((backward rs n).1 / r, (backward rs n).1 % r :: (backward rs n).2) := rfl
    rw [hstep, ih, Nat.div_div_eq_div_mul, Nat.mul_comm (size rs), size, digits]

/-! ## Words -/

open Text (wordLimit)

/-- The product of two words, if it fits a word. -/
def mulWord? (a b : Nat) : Option Nat := if a * b < wordLimit then some (a * b) else none

/-- The sum of two words, if it fits a word. -/
def addWord? (a b : Nat) : Option Nat := if a + b < wordLimit then some (a + b) else none

theorem mulWord?_eq_some {a b : Nat} (h : a * b < wordLimit) : mulWord? a b = some (a * b) :=
  if_pos h

theorem addWord?_eq_some {a b : Nat} (h : a + b < wordLimit) : addWord? a b = some (a + b) :=
  if_pos h

/-- The place values in words, from the last place to the first: each is the
    next one times the radix there. -/
def wordPlaceValues? : List Nat → Option (List Nat)
  | [] => some []
  | [_] => some [1]
  | _ :: r :: rs => do
    let ps ← wordPlaceValues? (r :: rs)
    let p ← ps.head?
    return (← mulWord? p r) :: ps

/-- A sum of words with each digit times its place value added, from the
    first place to the last. -/
def wordSum? (sum : Nat) : List Nat → List Nat → Option Nat
  | p :: ps, d :: ds => do wordSum? (← addWord? sum (← mulWord? d p)) ps ds
  | _, _ => some sum

/-- The number with given digits in words. -/
def wordValue? (ps ds : List Nat) : Option Nat := wordSum? 0 ps ds

theorem size_tail_le {r : Nat} {rs : List Nat} (h : 0 < r) : size rs ≤ size (r :: rs) :=
  Nat.le_mul_of_pos_left _ h

/-- The place values fit words if the size does. -/
theorem wordPlaceValues?_eq_some {rs : List Nat} (hpos : ∀ r ∈ rs, 0 < r)
    (hs : size rs < wordLimit) : wordPlaceValues? rs = some (placeValues rs) := by
  induction rs with
  | nil => rfl
  | cons q rs ih =>
    have htail : size rs < wordLimit := Nat.lt_of_le_of_lt (size_tail_le (hpos q (by simp))) hs
    have ih := ih (fun r hr => hpos r (List.mem_cons_of_mem q hr)) htail
    cases rs with
    | nil => rfl
    | cons r rs =>
      have hmul : mulWord? (size rs) r = some (size (r :: rs)) := by
        rw [size, Nat.mul_comm r] at htail
        rw [mulWord?_eq_some htail, size, Nat.mul_comm]
      simp [wordPlaceValues?, ih, placeValues, hmul]

/-- A running sum fits a word if the final one does. -/
theorem wordSum?_eq_some {rs ds : List Nat} (sum : Nat) (h : Below rs ds)
    (hs : sum + value rs ds < wordLimit) :
    wordSum? sum (placeValues rs) ds = some (sum + value rs ds) := by
  induction rs generalizing ds sum with
  | nil => simp_all [value, placeValues, wordSum?]
  | cons r rs ih =>
    obtain ⟨d, es, -, hes, rfl⟩ := below_cons.1 h
    rw [value] at hs ⊢
    have hmul : mulWord? d (size rs) = some (d * size rs) := mulWord?_eq_some (by omega)
    have hadd : addWord? sum (d * size rs) = some (sum + d * size rs) :=
      addWord?_eq_some (by omega)
    have ih := ih (sum + d * size rs) hes (by omega)
    simp [placeValues, wordSum?, hmul, hadd, ih, Nat.add_assoc]

/-- The number of digits fits a word if the size does. -/
theorem wordValue?_eq_some {rs ds : List Nat} (h : Below rs ds) (hs : size rs < wordLimit) :
    wordValue? (placeValues rs) ds = some (value rs ds) := by
  have hv := wordSum?_eq_some 0 h (by have := value_lt_size h; omega)
  rwa [Nat.zero_add] at hv

/-- A product that stays at a limit once it is above. -/
def cappedProduct (limit : Nat) (rs : List Nat) : Nat :=
  rs.foldl (fun product r => min (product * r) limit) 1

theorem foldl_min_mul (limit a : Nat) (rs : List Nat) (ha : a ≤ limit) :
    rs.foldl (fun product r => min (product * r) limit) a = min (a * size rs) limit := by
  induction rs generalizing a with
  | nil => simp [size, ha]
  | cons r rs ih =>
    rw [List.foldl_cons, ih _ (Nat.min_le_right _ _), size, ← Nat.mul_assoc]
    rcases Nat.le_total (a * r) limit with hle | hge
    · rw [Nat.min_eq_left hle]
    · rw [Nat.min_eq_right hge]
      rcases Nat.eq_zero_or_pos (size rs) with h0 | hpos
      · simp [h0]
      · rw [Nat.min_eq_right (Nat.le_mul_of_pos_right _ hpos),
          Nat.min_eq_right (hge.trans (Nat.le_mul_of_pos_right _ hpos))]

theorem cappedProduct_eq {limit : Nat} (h : 1 ≤ limit) (rs : List Nat) :
    cappedProduct limit rs = min (size rs) limit := by
  rw [cappedProduct, foldl_min_mul limit 1 rs h, Nat.one_mul]

end JointProb.MixedRadix
