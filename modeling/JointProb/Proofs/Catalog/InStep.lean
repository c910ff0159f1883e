/-
  JointProb — positions that are stored.

  A catalog stores the position of each variable twice: with the variable, and
  under its name in a map.  Names are looked up in the map, and what is found
  says its position itself, so both have to be those at which the variables
  stand.

  * `Catalog.InStep` says that they are, and that names are distinct;
    `Catalog.of` is the catalog of given variables for which they are;
  * `Catalog.ofVariables_eq_ok_iff`: so they are in the catalogs that can be
    made, and `Catalog.InStep.rename`: in those with other names, so that
    `Distribution.sound_catalog` has it for whatever a text describes;
  * `Catalog.InStep.indexOf?_eq_some_iff`, `Catalog.InStep.named?_eq_some_iff`
    and `Catalog.InStep.lookup_eq_ok_iff`: then names lead to the variables that
    have them;
  * `Catalog.InStep.ext`: and the variables determine the catalog.
-/
import JointProb.Proofs.Catalog.Names

namespace JointProb

variable {α : Type}

namespace Catalog

/-- The stored positions are those of the variables: each variable has its own
    one, and the map has it under the name of the variable alone. -/
structure InStep (c : Catalog) : Prop where
  nodup_names : c.names.Nodup
  index_eq {i : Nat} {v : PlacedVariable} (h : c.placed[i]? = some v) : v.index = i
  byName_eq : c.byName = c.names.zipIdx.reverse

/-- The catalog of variables with their positions, whatever their names. -/
def of (vars : List Variable) : Catalog where
  placed := vars.zipIdx.map fun (v, i) => ⟨v, i⟩
  byName := (vars.map Variable.name).zipIdx.reverse

variable {c c' : Catalog} {vars : List Variable} {names : List String} {name : String} {i : Nat}
  {v : Variable}

theorem getElem?_names (c : Catalog) (i : Nat) : c.names[i]? = c.vars[i]?.map Variable.name := by
  simp [Catalog.names]

@[simp]
theorem vars_of (vars : List Variable) : (of vars).vars = vars := by
  rw [Catalog.vars, of, List.map_map]
  exact List.zipIdx_map_fst 0 vars

@[simp]
theorem names_of (vars : List Variable) : (of vars).names = vars.map Variable.name := by
  rw [Catalog.names, vars_of]

theorem inStep_of (h : (vars.map Variable.name).Nodup) : (of vars).InStep where
  nodup_names := by rwa [names_of]
  index_eq h := by
    obtain ⟨⟨v, i⟩, hv, rfl⟩ := Option.map_eq_some_iff.1 (List.getElem?_map .. ▸ h)
    rw [List.getElem?_zipIdx] at hv
    obtain ⟨w, -, heq⟩ := Option.map_eq_some_iff.1 hv
    simpa using (Prod.mk.inj heq).2.symm
  byName_eq := by rw [names_of, of]

namespace InStep

/-- A variable is stored with its position. -/
theorem getElem?_placed (h : c.InStep) (i : Nat) :
    c.placed[i]? = c.vars[i]?.map fun v => ⟨v, i⟩ := by
  rw [Catalog.vars, List.getElem?_map, Option.map_map]
  cases hv : c.placed[i]? with
  | none => rfl
  | some v =>
    obtain rfl := h.index_eq hv
    rfl

/-- The stored positions are those that there are. -/
theorem forall_index_iff (h : c.InStep) {p : Nat → Prop} :
    (∀ v ∈ c.placed, p v.index) ↔ ∀ i < c.vars.length, p i := by
  constructor
  · intro hall i hi
    have hplaced : c.placed[i]? = some ⟨c.vars[i], i⟩ := by
      rw [h.getElem?_placed, List.getElem?_eq_getElem hi]
      rfl
    exact hall _ (List.mem_of_getElem? hplaced)
  · intro hall v hv
    obtain ⟨i, hi⟩ := List.getElem?_of_mem hv
    rw [h.index_eq hi]
    refine hall i ?_
    rw [Catalog.vars, List.length_map]
    exact (List.getElem?_eq_some_iff.1 hi).1

/-- **The variables determine the catalog.** -/
theorem ext (h : c.InStep) (h' : c'.InStep) (hvars : c.vars = c'.vars) : c = c' := by
  have hplaced : c.placed = c'.placed :=
    List.ext_getElem? fun i => by rw [h.getElem?_placed, h'.getElem?_placed, hvars]
  have hbyName : c.byName = c'.byName := by
    rw [h.byName_eq, h'.byName_eq, Catalog.names, Catalog.names, hvars]
  cases c
  cases c'
  exact congrArg₂ _ hplaced hbyName

theorem of_vars (h : c.InStep) : of c.vars = c :=
  (inStep_of h.nodup_names).ext h (vars_of _)

/-! ## Lookup -/

/-- **A name leads to the position at which it stands.** -/
theorem indexOf?_eq_some_iff (h : c.InStep) :
    c.indexOf? name = some i ↔ c.names[i]? = some name := by
  have hkeys : (c.names.zipIdx.reverse.map Prod.fst).Nodup := by
    rw [List.map_reverse, List.zipIdx_map_fst, List.nodup_reverse]
    exact h.nodup_names
  rw [indexOf?, h.byName_eq, lookup_eq_some_iff_mem hkeys, List.mem_reverse,
    List.mem_zipIdx_iff_getElem?]

/-- **A name leads to its variable**, which has the position at which it
    stands. -/
theorem named?_eq_some_iff (h : c.InStep) :
    c.named? name = some ⟨v, i⟩ ↔ c.vars[i]? = some v ∧ v.name = name := by
  rw [named?, Option.bind_eq_some_iff]
  simp only [h.indexOf?_eq_some_iff, h.getElem?_placed, getElem?_names, Option.map_eq_some_iff]
  constructor
  · rintro ⟨j, ⟨w, hw, rfl⟩, w', hw', heq⟩
    obtain rfl := Option.some_inj.1 (hw.symm.trans hw')
    cases heq
    exact ⟨hw, rfl⟩
  · rintro ⟨hv, rfl⟩
    exact ⟨i, ⟨v, hv, rfl⟩, v, hv, rfl⟩

theorem lookup_eq_ok_iff (h : c.InStep) :
    c.lookup name = .ok ⟨v, i⟩ ↔ c.vars[i]? = some v ∧ v.name = name := by
  rw [← h.named?_eq_some_iff, lookup]
  split
  · next w hw => simp [hw]
  · next hnone => simp [hnone]

/-- Different variables have different names. -/
theorem eq_of_name_eq (h : c.InStep) {j : Nat} {w : Variable} (hv : c.vars[i]? = some v)
    (hw : c.vars[j]? = some w) (hname : v.name = w.name) : i = j ∧ v = w := by
  have hsame := (h.named?_eq_some_iff.2 ⟨hv, hname⟩).symm.trans (h.named?_eq_some_iff.2 ⟨hw, rfl⟩)
  cases hsame
  exact ⟨rfl, rfl⟩

end InStep

/-! ## Construction -/

/-- The names are checked after the size, and then the catalog is that of the
    variables. -/
theorem ofVariables_eq (vars : List Variable) (cap : Nat) :
    (ofVariables vars cap : Except (SpecError α) Catalog) =
      if cap < (of vars).size ∨ Text.wordLimit ≤ (of vars).size then
        .error (.spaceTooLarge (min (of vars).size countLimit) cap)
      else (checkNames 0 [] (vars.map Variable.name)).map fun _ => of vars := by
  rw [ofVariables, size, cardinalities, vars_of, noteNames_eq, List.append_nil]
  split_ifs
  · rfl
  · cases hnames : (checkNames 0 [] (vars.map Variable.name) : Except (SpecError α) Unit) <;>
      simp only [List.map_nil, hnames] <;> rfl

theorem of_ofVariables {cap : Nat}
    (h : (ofVariables vars cap : Except (SpecError α) Catalog) = .ok c) : c = of vars := by
  rw [ofVariables_eq] at h
  split_ifs at h
  obtain ⟨-, -, rfl⟩ := map_eq_ok.1 h
  rfl

/-- **The catalogs that can be made**: those of variables with distinct
    identifiers as names whose size is within the cap and fits a word; their
    positions are stored. -/
theorem ofVariables_eq_ok_iff {cap : Nat} :
    (ofVariables vars cap : Except (SpecError α) Catalog) = .ok c ↔
      c.vars = vars ∧ c.InStep ∧ c.size ≤ cap ∧ c.size < Text.wordLimit ∧
        ∀ n ∈ c.names, isIdentifier n := by
  rw [ofVariables_eq]
  split_ifs with hlarge
  · refine iff_of_false (by simp) ?_
    rintro ⟨rfl, hstep, hcap, hword, -⟩
    rw [hstep.of_vars] at hlarge
    exact hlarge.elim (fun h => Nat.not_lt.2 hcap h) (fun h => Nat.not_lt.2 h hword)
  rw [not_or, Nat.not_lt, Nat.not_le] at hlarge
  rw [map_eq_ok]
  constructor
  · rintro ⟨_, hnames, rfl⟩
    obtain ⟨hid, hnodup, -⟩ := checkNames_eq_ok_iff.1 hnames
    exact ⟨vars_of vars, inStep_of hnodup, hlarge.1, hlarge.2, by rwa [names_of]⟩
  · rintro ⟨rfl, hstep, -, -, hid⟩
    exact ⟨(), checkNames_eq_ok_iff.2 ⟨hid, hstep.nodup_names, by simp⟩, hstep.of_vars⟩

/-! ## Other names -/

variable (h : (c.rename names : Except (SpecError α) Catalog) = .ok c')
include h

theorem of_rename : ((∀ n ∈ names, isIdentifier n) ∧ names.Nodup) ∧
    c' = ⟨c.placed.mapIdx fun i v => { v with name := (names[i]?).getD v.name },
      names.zipIdx.reverse⟩ := by
  obtain ⟨byName, hbyName, rfl⟩ := map_eq_ok.1 h
  obtain ⟨hnames, rfl⟩ := noteNames_eq_ok_iff.1 hbyName
  exact ⟨hnames, rfl⟩

theorem names_of_rename (hlen : names.length = c.vars.length) : c'.names = names := by
  obtain ⟨-, rfl⟩ := of_rename h
  rw [Catalog.vars, List.length_map] at hlen
  refine List.ext_getElem (by simp [Catalog.names, Catalog.vars, hlen]) fun i _ hi => ?_
  simp [Catalog.names, Catalog.vars, List.getElem?_eq_getElem hi]

/-- **Other names are noted in step**: the variables keep their positions, and
    the map has those of the new names. -/
theorem InStep.rename (hc : c.InStep) (hlen : names.length = c.vars.length) : c'.InStep := by
  have hnames := names_of_rename h hlen
  obtain ⟨⟨-, hnodup⟩, rfl⟩ := of_rename h
  refine ⟨by rwa [hnames], fun hv => ?_, by rw [hnames]⟩
  rw [List.getElem?_mapIdx, Option.map_eq_some_iff] at hv
  obtain ⟨w, hw, rfl⟩ := hv
  exact (hc.index_eq hw :)

end Catalog

end JointProb
