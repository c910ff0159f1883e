/-
  JointProb — constraints gathered one after the other.

  Entries on one side of a bar and pairs of a name and a state are both gathered
  into constraints on different variables: one that is there is not put in
  again, one that contradicts is refused.

  * `Constraint.Gathers` is a run of this, `Constraint.Gathers.mem_iff` and
    `Constraint.Gathers.nodup` what it gathers;
  * `Constraint.exists_gathers_iff`: constraints are gathered unless two of them
    contradict each other, wherever these stand;
  * `Constraint.find?_eq_some_iff`: in what has been gathered a variable has
    one constraint.
-/
import JointProb.Catalog.Basic
import Mathlib.Data.List.Nodup

namespace JointProb.Constraint

variable {seen xs ys : List Constraint} {x y : Constraint}

/-- Constraints put after others, without those that are there. -/
inductive Gathers : List Constraint → List Constraint → List Constraint → Prop
  | done {seen : List Constraint} : Gathers seen [] seen
  | new {seen xs ys : List Constraint} {x : Constraint} (hnew : ∀ y ∈ seen, y.var ≠ x.var)
      (h : Gathers (seen ++ [x]) xs ys) : Gathers seen (x :: xs) ys
  | again {seen xs ys : List Constraint} {x : Constraint} (hmem : x ∈ seen)
      (h : Gathers seen xs ys) : Gathers seen (x :: xs) ys

/-- Each variable has one state. -/
def Consistent (xs : List Constraint) : Prop :=
  ∀ x ∈ xs, ∀ y ∈ xs, x.var = y.var → x.state = y.state

/-- **What is gathered** is what was there and what was put to it. -/
theorem Gathers.mem_iff (h : Gathers seen xs ys) : x ∈ ys ↔ x ∈ seen ∨ x ∈ xs := by
  induction h with
  | done => simp
  | new _ _ ih => rw [ih, List.mem_append, List.mem_singleton, List.mem_cons, or_assoc]
  | again hmem _ ih =>
    rw [ih, List.mem_cons]
    exact or_congr_right' fun hx => ⟨.inr, fun h => h.resolve_left fun heq => hx (heq ▸ hmem)⟩

theorem nodup_concat (hseen : (seen.map var).Nodup) (hnew : ∀ y ∈ seen, y.var ≠ x.var) :
    ((seen ++ [x]).map var).Nodup := by
  rw [List.map_append, List.map_singleton, ← List.concat_eq_append, List.nodup_concat]
  refine ⟨fun hmem => ?_, hseen⟩
  obtain ⟨y, hy, heq⟩ := List.mem_map.1 hmem
  exact hnew y hy heq

/-- It is about different variables. -/
theorem Gathers.nodup (h : Gathers seen xs ys) (hseen : (seen.map var).Nodup) :
    (ys.map var).Nodup := by
  induction h with
  | done => exact hseen
  | new hnew _ ih => exact ih (nodup_concat hseen hnew)
  | again _ _ ih => exact ih hseen

theorem eq_of_var_eq (hseen : (seen.map var).Nodup) (hx : x ∈ seen) (hy : y ∈ seen)
    (h : x.var = y.var) : x = y :=
  List.inj_on_of_nodup_map hseen hx hy h

theorem consistent_of_nodup (h : (xs.map var).Nodup) : Consistent xs :=
  fun _ hx _ hy hvar => congrArg state (eq_of_var_eq h hx hy hvar)

theorem Consistent.of_subset (h : Consistent ys) (hsub : xs ⊆ ys) : Consistent xs :=
  fun x hx y hy => h x (hsub hx) y (hsub hy)

/-- **Constraints are gathered unless two of them contradict each other.** -/
theorem exists_gathers_iff (hseen : (seen.map var).Nodup) :
    (∃ ys, Gathers seen xs ys) ↔ Consistent (seen ++ xs) := by
  constructor
  · rintro ⟨ys, h⟩
    exact (consistent_of_nodup (h.nodup hseen)).of_subset fun x hx =>
      h.mem_iff.2 (List.mem_append.1 hx)
  · intro h
    induction xs generalizing seen with
    | nil => exact ⟨seen, .done⟩
    | cons x xs ih =>
      by_cases hmem : x ∈ seen
      · obtain ⟨ys, hys⟩ := ih hseen (h.of_subset (by simp))
        exact ⟨ys, .again hmem hys⟩
      · have hnew : ∀ y ∈ seen, y.var ≠ x.var := by
          intro y hy hvar
          have hstate := h y (by simp [hy]) x (by simp) hvar
          obtain ⟨i, s⟩ := x
          obtain ⟨j, t⟩ := y
          cases hvar
          cases hstate
          exact hmem hy
        obtain ⟨ys, hys⟩ := ih (nodup_concat hseen hnew) (h.of_subset (by simp))
        exact ⟨ys, .new hnew hys⟩

/-! ## Search -/

theorem find?_eq_none_iff {i : Nat} :
    seen.find? (·.var == i) = none ↔ ∀ y ∈ seen, y.var ≠ i := by
  simp

/-- **A variable has one constraint.** -/
theorem find?_eq_some_iff (hseen : (seen.map var).Nodup) {i : Nat} :
    seen.find? (·.var == i) = some x ↔ x ∈ seen ∧ x.var = i := by
  constructor
  · intro h
    exact ⟨List.mem_of_find?_eq_some h, by simpa using List.find?_some h⟩
  · rintro ⟨hx, rfl⟩
    cases h : seen.find? (·.var == x.var) with
    | none => exact absurd rfl (find?_eq_none_iff.1 h x hx)
    | some y =>
      have hvar : y.var = x.var := by simpa using List.find?_some h
      rw [eq_of_var_eq hseen (List.mem_of_find?_eq_some h) hx hvar]

end JointProb.Constraint
