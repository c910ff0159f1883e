/-
  JointProb — running sums and the search in them.

  * `Weights.bisect_eq_findIdx`: halving finds where a property ends that does
    not come back;
  * `Scalar.Rounds` is what rounding leaves of the laws of sums: adding a weight
    does not lower a sum, adding zero does not raise it;
  * `Weights.pos_of_firstAbove?`: so the first sum above a target is that of a
    positive weight;
  * `Weights.firstAbove?_eq_some_iff`: when nothing is rounded, it is that of the
    one weight that the target falls into.
-/
import JointProb.Weights
import JointProb.Proofs.Real

namespace JointProb

/-- The laws of sums that rounding leaves.  There are no others for values that
    are not numbers and for zeros with a sign. -/
structure Scalar.Rounds (α : Type) [Scalar α] : Prop where
  zero_le_zero : (0 : α) ≤ 0
  le_trans {x y z : α} : x ≤ y → y ≤ z → x ≤ z
  not_le_of_pos {x : α} : 0 < x → ¬ x ≤ 0
  /-- Adding a weight does not lower a sum. -/
  le_add {s w : α} : 0 ≤ s → 0 ≤ w → s ≤ s + w
  /-- Adding nothing does not raise it. -/
  add_zero_le {s : α} : 0 ≤ s → s + 0 ≤ s

theorem Scalar.Rounds.le_refl {α : Type} [Scalar α] (h : Scalar.Rounds α) {x : α} (hx : 0 ≤ x) :
    x ≤ x :=
  h.le_trans (h.le_add hx h.zero_le_zero) (h.add_zero_le hx)

theorem Scalar.rounds_real : Scalar.Rounds ℝ where
  zero_le_zero := le_rfl
  le_trans := le_trans
  not_le_of_pos := not_le_of_gt
  le_add _ hw := le_add_of_nonneg_right hw
  add_zero_le _ := (add_zero _).le

namespace Weights

/-! ## Search -/

section

variable {β : Type} {p : β → Bool} {xs : List β} {n size base : Nat}

/-- Halving finds the end of the first `n` elements, if these are the ones with
    the property. -/
theorem bisect_eq (hp : ∀ i : Nat, xs[i]?.any p = decide (i < n)) (hlow : base ≤ n)
    (hhigh : n ≤ base + size) : bisect p xs size base = n := by
  fun_induction bisect p xs size base with
  | case1 size base hsize =>
    rw [hp]
    split_ifs with h
    all_goals
      rw [decide_eq_true_eq] at h
      omega
  | case2 size base hsize half ih =>
    rw [hp] at ih ⊢
    split_ifs at ih ⊢ with h
    all_goals
      rw [decide_eq_true_eq] at h
      exact ih (by omega) (by omega)

/-- A property that does not come back is one of the elements before an index. -/
theorem any_getElem?_eq (hxs : xs.Pairwise fun x y => p y → p x) (i : Nat) :
    xs[i]?.any p = decide (i < xs.findIdx fun x => !p x) := by
  rw [Bool.eq_iff_iff, decide_eq_true_eq, List.lt_findIdx_iff, Option.any_eq_true]
  constructor
  · rintro ⟨x, hx, hpx⟩
    obtain ⟨hi, rfl⟩ := List.getElem?_eq_some_iff.1 hx
    refine ⟨hi, fun j hj => ?_⟩
    rcases hj.eq_or_lt with rfl | hlt
    · simpa using hpx
    · simpa using List.pairwise_iff_getElem.1 hxs j i _ hi hlt hpx
  · rintro ⟨hi, hall⟩
    exact ⟨xs[i], List.getElem?_eq_getElem hi, by simpa using hall i le_rfl⟩

/-- **Halving finds the first element without a property** that does not come
    back. -/
theorem bisect_eq_findIdx (hxs : xs.Pairwise fun x y => p y → p x) :
    bisect p xs xs.length 0 = xs.findIdx fun x => !p x :=
  bisect_eq (any_getElem?_eq hxs) (Nat.zero_le _) (by simpa using List.findIdx_le_length)

end

variable {α : Type} [Scalar α] {sums ws : List α} {start target w : α} {i : Nat}

/-- In sums that do not decrease, the search finds the first one above a
    target. -/
theorem firstAbove?_eq_findIdx? (h : Scalar.Rounds α) (hsums : sums.Pairwise (· ≤ ·)) :
    firstAbove? sums target = sums.findIdx? fun c => !decide (c ≤ target) := by
  have hends : sums.Pairwise fun c c' => decide (c' ≤ target) → decide (c ≤ target) := by
    simp only [decide_eq_true_eq]
    exact hsums.imp fun hle => h.le_trans hle
  rw [firstAbove?, bisect_eq_findIdx hends, List.findIdx?_eq_guard_findIdx_lt]
  simp [Option.guard]

/-! ## Running sums -/

theorem positivePart_nonneg (h : Scalar.Rounds α) (hw : 0 ≤ w) : 0 ≤ Scalar.positivePart w := by
  rw [Scalar.positivePart]
  split_ifs
  · exact hw
  · exact h.zero_le_zero

theorem le_of_mem_cumulativeFrom (h : Scalar.Rounds α) (hstart : 0 ≤ start)
    (hws : ∀ w ∈ ws, 0 ≤ w) : ∀ c ∈ cumulativeFrom start ws, start ≤ c := by
  induction ws generalizing start with
  | nil => simp [cumulativeFrom]
  | cons w ws ih =>
    obtain ⟨hw, hws⟩ := List.forall_mem_cons.1 hws
    have hnext := h.le_add hstart (positivePart_nonneg h hw)
    refine List.forall_mem_cons.2 ⟨hnext, fun c hc => h.le_trans hnext ?_⟩
    exact ih (h.le_trans hstart hnext) hws c hc

theorem getLast?_cumulativeFrom_cons (start w : α) (ws : List α) :
    (cumulativeFrom start (w :: ws)).getLast?.getD start =
      (cumulativeFrom (start + Scalar.positivePart w) ws).getLast?.getD
        (start + Scalar.positivePart w) := by
  rw [cumulativeFrom, List.getLast?_cons, Option.getD_some]

theorem le_getLast?_cumulativeFrom (h : Scalar.Rounds α) (hstart : 0 ≤ start)
    (hws : ∀ w ∈ ws, 0 ≤ w) : start ≤ (cumulativeFrom start ws).getLast?.getD start := by
  cases hlast : (cumulativeFrom start ws).getLast? with
  | none => exact h.le_refl hstart
  | some c => exact le_of_mem_cumulativeFrom h hstart hws c (List.mem_of_getLast? hlast)

/-- No running sum is above the last one. -/
theorem mem_cumulativeFrom_le_getLast? (h : Scalar.Rounds α) (hstart : 0 ≤ start)
    (hws : ∀ w ∈ ws, 0 ≤ w) :
    ∀ c ∈ cumulativeFrom start ws, c ≤ (cumulativeFrom start ws).getLast?.getD start := by
  induction ws generalizing start with
  | nil => simp [cumulativeFrom]
  | cons w ws ih =>
    obtain ⟨hw, hws⟩ := List.forall_mem_cons.1 hws
    have hnext := h.le_trans hstart (h.le_add hstart (positivePart_nonneg h hw))
    rw [getLast?_cumulativeFrom_cons, cumulativeFrom]
    exact List.forall_mem_cons.2 ⟨le_getLast?_cumulativeFrom h hnext hws, ih hnext hws⟩

/-- **Running sums do not decrease.** -/
theorem pairwise_cumulativeFrom (h : Scalar.Rounds α) (hstart : 0 ≤ start)
    (hws : ∀ w ∈ ws, 0 ≤ w) : (cumulativeFrom start ws).Pairwise (· ≤ ·) := by
  induction ws generalizing start with
  | nil => exact .nil
  | cons w ws ih =>
    obtain ⟨hw, hws⟩ := List.forall_mem_cons.1 hws
    have hnext := h.le_trans hstart (h.le_add hstart (positivePart_nonneg h hw))
    exact .cons (le_of_mem_cumulativeFrom h hnext hws) (ih hnext hws)

theorem add_positivePart_le (h : Scalar.Rounds α) (hstart : 0 ≤ start) (hw : ¬ 0 < w) :
    start + Scalar.positivePart w ≤ start := by
  rw [Scalar.positivePart, if_neg hw]
  exact h.add_zero_le hstart

/-- Without a positive weight, the sums stay where they are. -/
theorem mem_cumulativeFrom_le (h : Scalar.Rounds α) (hstart : 0 ≤ start)
    (hws : ∀ w ∈ ws, 0 ≤ w) (hnone : ∀ w ∈ ws, ¬ 0 < w) :
    ∀ c ∈ cumulativeFrom start ws, c ≤ start := by
  induction ws generalizing start with
  | nil => simp [cumulativeFrom]
  | cons w ws ih =>
    obtain ⟨hw, hws⟩ := List.forall_mem_cons.1 hws
    obtain ⟨hw', hnone⟩ := List.forall_mem_cons.1 hnone
    have hle := add_positivePart_le h hstart hw'
    have hnext := h.le_trans hstart (h.le_add hstart (positivePart_nonneg h hw))
    exact List.forall_mem_cons.2 ⟨hle, fun c hc => h.le_trans (ih hnext hws hnone c hc) hle⟩

/-- The first running sum above a target is that of a positive weight: the
    others leave the sum as it was. -/
theorem pos_of_findIdx? (h : Scalar.Rounds α) (hstart : 0 ≤ start) (hws : ∀ w ∈ ws, 0 ≤ w)
    (htarget : start ≤ target)
    (hi : (cumulativeFrom start ws).findIdx? (fun c => !decide (c ≤ target)) = some i) :
    ∃ w, ws[i]? = some w ∧ 0 < w := by
  induction ws generalizing start i with
  | nil => simp [cumulativeFrom] at hi
  | cons w ws ih =>
    obtain ⟨hw, hws⟩ := List.forall_mem_cons.1 hws
    have hnext := h.le_trans hstart (h.le_add hstart (positivePart_nonneg h hw))
    rw [cumulativeFrom, List.findIdx?_cons] at hi
    by_cases hle : start + Scalar.positivePart w ≤ target
    · rw [if_neg (by simpa using hle), Option.map_eq_some_iff] at hi
      obtain ⟨j, hj, rfl⟩ := hi
      exact ih hnext hws hle hj
    · rw [if_pos (by simpa using hle), Option.some_inj] at hi
      subst hi
      refine ⟨w, rfl, ?_⟩
      by_contra hpos
      exact hle (h.le_trans (add_positivePart_le h hstart hpos) htarget)

theorem firstAbove?_cumulative (h : Scalar.Rounds α) (hws : ∀ w ∈ ws, 0 ≤ w) :
    firstAbove? (cumulative ws) target =
      (cumulativeFrom 0 ws).findIdx? fun c => !decide (c ≤ target) :=
  firstAbove?_eq_findIdx? h (pairwise_cumulativeFrom h h.zero_le_zero hws)

/-- The search finds nothing past the last running sum. -/
theorem firstAbove?_eq_none_iff (h : Scalar.Rounds α) (hws : ∀ w ∈ ws, 0 ≤ w)
    (htarget : 0 ≤ target) : firstAbove? (cumulative ws) target = none ↔
      (cumulative ws).getLast?.getD 0 ≤ target := by
  rw [firstAbove?_cumulative h hws, List.findIdx?_eq_none_iff]
  simp only [Bool.not_eq_eq_eq_not, Bool.not_false, decide_eq_true_eq]
  constructor
  · intro hall
    cases hlast : (cumulative ws).getLast? with
    | none => exact htarget
    | some c => exact hall c (List.mem_of_getLast? hlast)
  · intro hle c hc
    exact h.le_trans (mem_cumulativeFrom_le_getLast? h h.zero_le_zero hws c hc) hle

/-- **The search finds positive weights only**, also under rounding. -/
theorem pos_of_firstAbove? (h : Scalar.Rounds α) (hws : ∀ w ∈ ws, 0 ≤ w) (htarget : 0 ≤ target)
    (hi : firstAbove? (cumulative ws) target = some i) : ∃ w, ws[i]? = some w ∧ 0 < w := by
  rw [firstAbove?_cumulative h hws] at hi
  exact pos_of_findIdx? h h.zero_le_zero hws htarget hi

/-! ## Without rounding -/

section

variable {ws : List ℝ} {start target : ℝ}

theorem positivePart_of_nonneg {w : ℝ} (hw : 0 ≤ w) : Scalar.positivePart w = w := by
  rw [Scalar.positivePart]
  split_ifs with h
  · rfl
  · exact le_antisymm hw (not_lt.1 h)

theorem getLast?_cumulativeFrom (hws : ∀ w ∈ ws, 0 ≤ w) :
    (cumulativeFrom start ws).getLast?.getD start = start + ws.sum := by
  induction ws generalizing start with
  | nil => simp [cumulativeFrom]
  | cons w ws ih =>
    obtain ⟨hw, hws⟩ := List.forall_mem_cons.1 hws
    rw [getLast?_cumulativeFrom_cons, ih hws, positivePart_of_nonneg hw, List.sum_cons, add_assoc]

theorem findIdx?_cumulativeFrom (hws : ∀ w ∈ ws, 0 ≤ w) (htarget : start ≤ target) :
    (cumulativeFrom start ws).findIdx? (fun c => !decide (c ≤ target)) = some i ↔
      i < ws.length ∧ start + (ws.take i).sum ≤ target ∧ target < start + (ws.take (i + 1)).sum := by
  induction ws generalizing start i with
  | nil => simp [cumulativeFrom]
  | cons w ws ih =>
    obtain ⟨hw, hws⟩ := List.forall_mem_cons.1 hws
    have hsum (n : Nat) : 0 ≤ (ws.take n).sum :=
      List.sum_nonneg fun w hw => hws w (List.mem_of_mem_take hw)
    rw [cumulativeFrom, positivePart_of_nonneg hw, List.findIdx?_cons]
    by_cases hle : start + w ≤ target
    · rw [if_neg (by simpa using hle)]
      cases i with
      | zero => simpa using fun _ => hle
      | succ i => simp [ih hws hle, add_assoc]
    · rw [if_pos (by simpa using hle)]
      cases i with
      | zero => simpa using ⟨htarget, not_le.1 hle⟩
      | succ i =>
        simp only [Option.some_inj, List.take_succ_cons, List.sum_cons]
        refine iff_of_false (by omega) fun ⟨_, hlow, _⟩ => hle ?_
        linarith [hsum i]

/-- **When nothing is rounded, the search finds the weight that the target falls
    into**: the weights before it make up at most the target, together with it
    they make up more. -/
theorem firstAbove?_eq_some_iff (hws : ∀ w ∈ ws, 0 ≤ w) (htarget : 0 ≤ target) :
    firstAbove? (cumulative ws) target = some i ↔
      i < ws.length ∧ (ws.take i).sum ≤ target ∧ target < (ws.take (i + 1)).sum := by
  rw [firstAbove?_cumulative Scalar.rounds_real hws]
  have hiff := @findIdx?_cumulativeFrom i ws 0 target hws htarget
  rwa [zero_add, zero_add] at hiff

end

end Weights

end JointProb
