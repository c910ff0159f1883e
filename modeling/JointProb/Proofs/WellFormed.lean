/-
  JointProb — what all distributions have in common.

  * `Variable.WellFormed`, `Catalog.WellFormed` and
    `Distribution.WellFormed` say this of variables that have a choice, of
    catalogs within a cap, and of tables of probabilities over them;
  * `Catalog.wellFormed_of_ofVariables`: of such variables a well-formed
    catalog is made;
  * `Catalog.WellFormed.rename` and `Distribution.WellFormed.withNames`: other
    names do not change this.
-/
import JointProb.Distribution
import JointProb.Proofs.Catalog.InStep
import JointProb.Proofs.MixedRadix
import JointProb.Proofs.Spec.Line

namespace JointProb

variable {α : Type}

/-- At least two states, all different. -/
structure Variable.WellFormed (v : Variable) : Prop where
  nodup_states : v.states.Nodup
  two_le_cardinality : 2 ≤ v.cardinality

/-- Variables with distinct identifiers as names and with their positions, which
    are stored with them and under their names, and not more assignments than a
    cap. -/
structure Catalog.WellFormed (cap : Nat) (c : Catalog) : Prop extends c.InStep where
  vars_ne_nil : c.vars ≠ []
  isIdentifier_names : ∀ name ∈ c.names, isIdentifier name
  indexOf?_eq_some_iff {name : String} {i : Nat} :
    c.indexOf? name = some i ↔ c.names[i]? = some name
  lookup_eq_ok_iff {name : String} {i : Nat} {v : Variable} :
    c.lookup name = .ok ⟨v, i⟩ ↔ c.vars[i]? = some v ∧ v.name = name
  wellFormed_vars : ∀ v ∈ c.vars, v.WellFormed
  size_eq_prod : c.size = (c.vars.map Variable.cardinality).prod
  size_le : c.size ≤ cap

/-- A probability for each assignment, with the sum one. -/
structure Distribution.WellFormed (cap : Nat) (d : Distribution ℚ) : Prop where
  wellFormed_catalog : d.catalog.WellFormed cap
  length_probs : d.probs.length = d.catalog.size
  isProbability_probs : ∀ p ∈ d.probs, IsProbability p
  sum_probs : d.probs.sum = 1

/-! ## Catalogs -/

theorem Variable.wellFormed_boolean (name : String) : (Variable.boolean name).WellFormed where
  nodup_states := by simp [Variable.boolean]
  two_le_cardinality := le_rfl

namespace Catalog

theorem wellFormed {cap : Nat} {c : Catalog} (hne : c.vars ≠ []) (hstep : c.InStep)
    (hid : ∀ name ∈ c.names, isIdentifier name) (hvars : ∀ v ∈ c.vars, v.WellFormed)
    (hsize : c.size ≤ cap) : c.WellFormed cap where
  toInStep := hstep
  vars_ne_nil := hne
  isIdentifier_names := hid
  indexOf?_eq_some_iff := hstep.indexOf?_eq_some_iff
  lookup_eq_ok_iff := hstep.lookup_eq_ok_iff
  wellFormed_vars := hvars
  size_eq_prod := MixedRadix.size_eq_prod _
  size_le := hsize

/-- **Of variables that have a choice a well-formed catalog is made.** -/
theorem wellFormed_of_ofVariables {vars : List Variable} {cap : Nat} {c : Catalog}
    (hne : vars ≠ []) (hvars : ∀ v ∈ vars, v.WellFormed)
    (h : (ofVariables vars cap : Except (SpecError α) Catalog) = .ok c) : c.WellFormed cap := by
  obtain ⟨rfl, hstep, hsize, -, hid⟩ := ofVariables_eq_ok_iff.1 h
  exact wellFormed hne hstep hid hvars hsize

section

variable {c c' : Catalog} {names : List String}
  (h : (c.rename names : Except (SpecError α) Catalog) = .ok c')
include h

/-- Other names leave the states. -/
theorem wellFormed_vars_of_rename (hvars : ∀ v ∈ c.vars, v.WellFormed) :
    ∀ v ∈ c'.vars, v.WellFormed := by
  intro v hv
  have hmem : v.states ∈ c.vars.map Variable.states :=
    states_of_rename h ▸ List.mem_map_of_mem hv
  obtain ⟨w, hw, he⟩ := List.mem_map.1 hmem
  have hwf := hvars w hw
  exact ⟨he ▸ hwf.nodup_states, by
    rw [Variable.cardinality, ← he]; exact hwf.two_le_cardinality⟩

theorem WellFormed.rename (hlen : names.length = c.vars.length) {cap : Nat}
    (hc : c.WellFormed cap) : c'.WellFormed cap := by
  have hnames := names_of_rename h hlen
  obtain ⟨⟨hid, -⟩, -⟩ := of_rename h
  refine wellFormed ?_ (hc.toInStep.rename h hlen) (by rwa [hnames])
    (wellFormed_vars_of_rename h hc.wellFormed_vars) ?_
  · intro hnil
    have hstates := states_of_rename h
    rw [hnil, List.map_nil, eq_comm, List.map_eq_nil_iff] at hstates
    exact hc.vars_ne_nil hstates
  · rw [size_of_rename h]
    exact hc.size_le

end

end Catalog

/-! ## Distributions -/

theorem Distribution.of_withNames {d d' : Distribution α} {names : List String}
    (h : d.withNames names = .ok d') :
    (d.catalog.rename names : Except (SpecError α) Catalog) = .ok d'.catalog ∧
      d'.probs = d.probs := by
  rw [withNames] at h
  split at h
  · cases h
  next c hc =>
  cases h
  exact ⟨hc, rfl⟩

/-- **Other names leave a distribution well-formed.** -/
theorem Distribution.WellFormed.withNames {cap : Nat} {d d' : Distribution ℚ}
    (hd : d.WellFormed cap) {names : List String} (hlen : names.length = d.catalog.vars.length)
    (h : d.withNames names = .ok d') : d'.WellFormed cap := by
  obtain ⟨hcatalog, hprobs⟩ := of_withNames h
  exact
    { wellFormed_catalog := hd.wellFormed_catalog.rename hcatalog hlen
      length_probs := d'.length_probs
      isProbability_probs := hprobs ▸ hd.isProbability_probs
      sum_probs := hprobs ▸ hd.sum_probs }

/-- Scaled non-negative weights are a well-formed distribution. -/
theorem Distribution.wellFormed_of_normalizeWithin {cap : Nat} {d : Distribution ℚ} {band : ℚ}
    {ws : List ℚ} (hcatalog : d.catalog.WellFormed cap) (hws : ∀ w ∈ ws, 0 ≤ w)
    (h : Weights.normalizeWithin band ws = .ok d.probs) : d.WellFormed cap where
  wellFormed_catalog := hcatalog
  length_probs := d.length_probs
  isProbability_probs := (Weights.probabilities_of_normalizeWithin hws h).1
  sum_probs := (Weights.probabilities_of_normalizeWithin hws h).2

end JointProb
