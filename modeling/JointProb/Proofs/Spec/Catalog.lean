/-
  JointProb — the catalogs that specifications describe.

  With any scalars, those that round among them:

  * `Catalog.Sound` says that names are distinct identifiers and lead to their
    variables, that each variable has a choice of states, and that assignments
    are numbered by words;
  * `Catalog.Sound.cardinality_lt`: so are the states of each variable;
  * `TableDraft.ends_fill`: a table is over its catalog, or its sum is wrong;
  * `Distribution.sound_catalog`: whatever a text describes has such a catalog,
    also under other names.
-/
import JointProb.Proofs.Spec.Network
import JointProb.Proofs.Spec.Table
import JointProb.Spec.Build
import Mathlib.Algebra.BigOperators.Group.List.Lemmas

namespace JointProb

variable {α : Type}

namespace Catalog

/-- Names are distinct identifiers that lead to their variables, every variable
    has a choice of states, and a word is enough to number the assignments. -/
structure Sound (c : Catalog) : Prop extends c.InStep where
  isIdentifier_names : ∀ name ∈ c.names, isIdentifier name
  wellFormed_vars : ∀ v ∈ c.vars, v.WellFormed
  size_lt : c.size < Text.wordLimit

variable {c : Catalog}

theorem sound_of_ofVariables {vars : List Variable} {cap : Nat}
    (hvars : ∀ v ∈ vars, v.WellFormed)
    (h : (ofVariables vars cap : Except (SpecError α) Catalog) = .ok c) : c.Sound := by
  obtain ⟨rfl, hstep, -, hword, hid⟩ := ofVariables_eq_ok_iff.1 h
  exact ⟨hstep, hid, hvars, hword⟩

theorem Sound.rename (hc : c.Sound) {c' : Catalog} {names : List String}
    (h : (c.rename names : Except (SpecError α) Catalog) = .ok c')
    (hlen : names.length = c.vars.length) : c'.Sound where
  toInStep := hc.toInStep.rename h hlen
  isIdentifier_names := by
    rw [names_of_rename h hlen]
    exact (of_rename h).1.1
  wellFormed_vars := wellFormed_vars_of_rename h hc.wellFormed_vars
  size_lt := by
    rw [size_of_rename h]
    exact hc.size_lt

/-- A word is enough to number the states of a variable. -/
theorem Sound.cardinality_lt (hc : c.Sound) {v : Variable} (hv : v ∈ c.vars) :
    v.cardinality < Text.wordLimit := by
  have hpos : 0 < c.size := MixedRadix.size_pos fun r hr => by
    obtain ⟨w, hw, rfl⟩ := List.mem_map.1 hr
    exact Nat.lt_of_lt_of_le Nat.two_pos (hc.wellFormed_vars w hw).two_le_cardinality
  have hdvd : v.cardinality ∣ c.size := by
    rw [size, MixedRadix.size_eq_prod]
    exact List.dvd_prod (List.mem_map_of_mem hv)
  exact (Nat.le_of_dvd hpos hdvd).trans_lt hc.size_lt

end Catalog

/-! ## What texts describe -/

theorem Distribution.sound_catalog_rename {d d' : Distribution α} {names : Option (List String)}
    (hd : d.catalog.Sound) (h : d.rename names = .ok d') : d'.catalog.Sound := by
  cases names with
  | none =>
    cases h
    exact hd
  | some names =>
    simp only [rename] at h
    split_ifs at h with hlen
    · exact hd.rename (of_withNames h).1 hlen
    · cases h
      exact hd

variable [Scalar α] {settings : Settings α}

theorem NetworkDraft.sound_catalog {d : NetworkDraft} (hd : d.Sound) {n : Network α}
    (h : d.network settings = .ok n) : n.catalog.Sound := by
  obtain ⟨-, c, nodes, hc, -, -, h⟩ := network_eq_ok_iff.1 h
  obtain ⟨rfl, -⟩ := Network.of_ofNodes h
  exact Catalog.sound_of_ofVariables hd hc

/-- The faults of the sum of a table. -/
inductive TableDraft.IsSumFault : SpecError α → Prop
  | residual (sum rest : α) : IsSumFault (.negativeResidual sum rest)
  | above (sum : α) : IsSumFault (.sumAboveBand sum)
  | below (sum : α) : IsSumFault (.sumBelowBand sum)

/-- A table is over its catalog or has a wrong sum. -/
theorem TableDraft.ends_fill (settings : Settings α) (c : Catalog) (cells : List (Nat × α)) :
    Ends IsSumFault (fun d => d.catalog = c) (fill settings c cells) := by
  unfold fill
  split
  · next e he =>
    simp only [fillMissing] at he
    split_ifs at he
    cases he
    exact .residual _ _
  · split
    · rw [sumFault]
      split_ifs
      · exact .above _
      · exact .below _
    · rfl

theorem TableDraft.sound_catalog {t : TableDraft α} {given : Option (List String)}
    {d : Distribution α} (h : t.complete settings given = .ok d) : d.catalog.Sound := by
  simp only [complete, bind_eq_ok] at h
  obtain ⟨w, -, c, hc, cells, -, h⟩ := h
  have hfill := ends_fill settings c cells
  rw [h] at hfill
  obtain rfl : d.catalog = c := hfill
  refine Catalog.sound_of_ofVariables (fun v hv => ?_) hc
  obtain ⟨name, -, rfl⟩ := List.mem_map.1 hv
  exact Variable.wellFormed_boolean name

namespace Distribution

/-- **Texts describe distributions over sound catalogs**, in either format,
    under any settings and with any names given. -/
theorem sound_catalog {names : Option (List String)} {format : Format} {text : String}
    {d : Distribution α} (h : ofText settings names format text = .ok d) : d.catalog.Sound := by
  cases format with
  | table =>
    obtain ⟨t, -, h⟩ := bind_eq_ok.1 h
    exact TableDraft.sound_catalog h
  | network =>
    simp only [ofText, ofNetwork, bind_eq_ok] at h
    obtain ⟨n, hn, e, he, h⟩ := h
    obtain ⟨draft, hdraft, hn⟩ := bind_eq_ok.1 hn
    refine sound_catalog_rename ?_ h
    rw [(Network.expand_eq_ok_iff.1 he).1]
    exact NetworkDraft.sound_catalog (NetworkDraft.sound_of_read hdraft) hn

end Distribution

end JointProb
