/-
  JointProb — the same variables at other positions.

  * `Renumbering` says where the elements of a list stand in another one;
    `exists_renumbering`: so it is for lists that are permutations of each
    other, and `Renumbering.perm` only for these;
  * `Constraint.renumber` follows a constraint to its new position;
  * `Catalog.lookup_renumber` and `Catalog.describe_renumber`: names lead to the
    new positions, and constraints read the same.
-/
import JointProb.Proofs.Catalog.InStep
import JointProb.Proofs.MixedRadix
import JointProb.Spec.Block
import Mathlib.Data.List.OfFn
import Mathlib.Logic.Equiv.Basic

namespace JointProb

variable {α β : Type} {σ : Equiv.Perm ℕ}

/-! ## Lists -/

/-- What stands at a position of one list stands at another position of a
    second list, which has nothing else. -/
def Renumbering (σ : Equiv.Perm ℕ) (xs ys : List β) : Prop := ∀ i, ys[σ i]? = xs[i]?

/-- A permutation of the positions behind the first one. -/
def afterHead (σ : Equiv.Perm ℕ) : Equiv.Perm ℕ where
  toFun
    | 0 => 0
    | i + 1 => σ i + 1
  invFun
    | 0 => 0
    | i + 1 => σ.symm i + 1
  left_inv i := by cases i <;> simp
  right_inv i := by cases i <;> simp

/-- **Permutations of a list are renumberings.** -/
theorem exists_renumbering {xs ys : List β} (h : xs.Perm ys) :
    ∃ σ : Equiv.Perm ℕ, Renumbering σ xs ys := by
  induction h with
  | nil => exact ⟨Equiv.refl ℕ, fun _ => rfl⟩
  | cons x _ ih =>
    obtain ⟨σ, h⟩ := ih
    refine ⟨afterHead σ, fun i => ?_⟩
    cases i with
    | zero => rfl
    | succ i => exact h i
  | swap x y xs =>
    refine ⟨Equiv.swap 0 1, fun i => ?_⟩
    match i with
    | 0 => rfl
    | 1 => rfl
    | i + 2 =>
      rw [Equiv.swap_apply_of_ne_of_ne (by omega) (by omega)]
      rfl
  | trans _ _ ihxy ihyz =>
    obtain ⟨σ, h⟩ := ihxy
    obtain ⟨τ, k⟩ := ihyz
    exact ⟨σ.trans τ, fun i => (k (σ i)).trans (h i)⟩

namespace Renumbering

variable {xs ys : List β}

theorem symm (h : Renumbering σ xs ys) : Renumbering σ.symm ys xs := by
  intro i
  rw [← h, Equiv.apply_symm_apply]

theorem map (h : Renumbering σ xs ys) (f : β → α) : Renumbering σ (xs.map f) (ys.map f) := by
  intro i
  rw [List.getElem?_map, List.getElem?_map, h]

theorem lt_iff (h : Renumbering σ xs ys) {i : ℕ} : σ i < ys.length ↔ i < xs.length := by
  rw [← Nat.not_le, ← Nat.not_le, ← List.getElem?_eq_none_iff, ← List.getElem?_eq_none_iff, h]

theorem symm_lt_iff (h : Renumbering σ xs ys) {i : ℕ} : σ.symm i < xs.length ↔ i < ys.length :=
  h.symm.lt_iff

/-- The positions go to the positions. -/
theorem map_range_perm (h : Renumbering σ xs ys) :
    ((List.range xs.length).map σ).Perm (List.range ys.length) := by
  refine (List.perm_ext_iff_of_nodup (List.nodup_range.map σ.injective) List.nodup_range).2
    fun i => ?_
  rw [List.mem_map, List.mem_range]
  constructor
  · rintro ⟨j, hj, rfl⟩
    exact h.lt_iff.2 (List.mem_range.1 hj)
  · intro hi
    exact ⟨σ.symm i, List.mem_range.2 (h.symm_lt_iff.2 hi), σ.apply_symm_apply i⟩

theorem length_eq (h : Renumbering σ xs ys) : ys.length = xs.length := by
  have hlength := h.map_range_perm.length_eq
  rwa [List.length_map, List.length_range, List.length_range, eq_comm] at hlength

theorem perm (h : Renumbering σ xs ys) : xs.Perm ys := by
  have hsome (zs : List β) : (List.range zs.length).map (zs[·]?) = zs.map some := by
    refine List.ext_getElem (by simp) fun i _ _ => by simp
  refine (List.map_perm_map_iff (Option.some_injective β)).1 ?_
  rw [← hsome, ← hsome]
  refine List.Perm.trans (.of_eq ?_) (h.map_range_perm.map (ys[·]?))
  rw [List.map_map]
  exact List.map_congr_left fun i _ => (h i).symm

/-- Another list of the same length can be renumbered in the same way. -/
theorem exists_of_length (h : Renumbering σ xs ys) {zs : List α} (hlength : zs.length = xs.length) :
    ∃ ws, Renumbering σ zs ws := by
  have hlt (i : Fin ys.length) : σ.symm i < zs.length := hlength ▸ h.symm_lt_iff.2 i.isLt
  refine ⟨List.ofFn fun i => zs.get ⟨σ.symm i, hlt i⟩, fun i => ?_⟩
  rw [List.getElem?_ofFn]
  split_ifs with hi
  · simp
  · rw [eq_comm, List.getElem?_eq_none_iff, hlength, ← Nat.not_lt]
    exact mt h.lt_iff.2 hi

end Renumbering

/-! ## Constraints -/

/-- The constraint on the variable at its new position. -/
def Constraint.renumber (σ : Equiv.Perm ℕ) (x : Constraint) : Constraint := ⟨σ x.var, x.state⟩

/-- The variable at its new position. -/
def PlacedVariable.renumber (σ : Equiv.Perm ℕ) (v : PlacedVariable) : PlacedVariable :=
  { v with index := σ v.index }

/-! ## Catalogs -/

namespace Catalog

variable {c c' : Catalog}

theorem variableAt_renumber (h : Renumbering σ c.vars c'.vars) (i : ℕ) :
    c'.variableAt (σ i) = c.variableAt i := by
  rw [variableAt, variableAt, h]

theorem cardinalityAt_renumber (h : Renumbering σ c.vars c'.vars) (i : ℕ) :
    c'.cardinalityAt (σ i) = c.cardinalityAt i := by
  rw [cardinalityAt, cardinalityAt, cardinalities, cardinalities, h.map]

theorem size_renumber (h : Renumbering σ c.vars c'.vars) : c'.size = c.size := by
  rw [size, size, MixedRadix.size_eq_prod, MixedRadix.size_eq_prod]
  exact ((h.map Variable.cardinality).perm.prod_eq).symm

theorem of_lookup_eq_error {name : String} {e : QueryError} (h : c.lookup name = .error e) :
    e = .unknownVariable name := by
  rw [lookup] at h
  split at h <;> cases h
  rfl

/-- **Names lead to the new positions.** -/
theorem lookup_renumber (h : Renumbering σ c.vars c'.vars) (hc : c.InStep) (hc' : c'.InStep)
    (name : String) : c'.lookup name = (c.lookup name).map (PlacedVariable.renumber σ) := by
  cases hfound : c.lookup name with
  | ok x =>
    obtain ⟨v, i⟩ := x
    obtain ⟨hv, hname⟩ := hc.lookup_eq_ok_iff.1 hfound
    exact hc'.lookup_eq_ok_iff.2 ⟨(h i).trans hv, hname⟩
  | error e =>
    cases hfound' : c'.lookup name with
    | ok x =>
      obtain ⟨v, i⟩ := x
      obtain ⟨hv, hname⟩ := hc'.lookup_eq_ok_iff.1 hfound'
      cases hfound.symm.trans (hc.lookup_eq_ok_iff.2 ⟨(h.symm i).trans hv, hname⟩)
    | error e' =>
      rw [of_lookup_eq_error hfound, of_lookup_eq_error hfound']
      rfl

/-- **Constraints read the same.** -/
theorem describe_renumber (h : Renumbering σ c.vars c'.vars) (fixed : List Constraint) :
    c'.describe (fixed.map (Constraint.renumber σ)) = c.describe fixed := by
  have hconstraint (x : Constraint) :
      c'.describeConstraint? (x.renumber σ) = c.describeConstraint? x := by
    rw [describeConstraint?, describeConstraint?, Constraint.renumber, h]
  simp only [describe, List.filterMap_map, Function.comp_def, hconstraint]

end Catalog

end JointProb
