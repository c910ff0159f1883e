/-
  JointProb — what marginal distributions tell.

  * `Distribution.marginal_eq_ok`: variables that exist have a marginal
    distribution, each of them taken where it comes first;
  * `Distribution.getElem?_marginalOf`: its probabilities are the masses of the
    states of these variables, found at the number of the states;
  * `Distribution.SumsOut` says what can be asked of a marginal distribution;
    `Distribution.exists_marginal`: so it is for all variables.
-/
import JointProb.Marginal
import JointProb.Proofs.Distribution.Laws
import JointProb.Proofs.Network.Basic

namespace JointProb

/-! ## First places -/

theorem eraseDups_eq_self {vs : List Nat} (h : vs.Nodup) : vs.eraseDups = vs := by
  induction vs with
  | nil => rfl
  | cons v vs ih =>
    obtain ⟨hv, hvs⟩ := List.nodup_cons.1 h
    have hfilter : vs.filter (fun u => !u == v) = vs :=
      List.filter_eq_self.2 fun u hu => by simp [ne_of_mem_of_not_mem hu hv]
    rw [List.eraseDups_cons, hfilter, ih hvs]

/-- Without repetitions, the elements of a list are in the order of their first
    places. -/
theorem pairwise_idxOf_eraseDups (vs : List Nat) :
    vs.eraseDups.Pairwise fun u v => vs.idxOf u < vs.idxOf v := by
  induction vs using List.reverseRecOn with
  | nil => exact .nil
  | append_singleton vs v ih =>
    have hfront : vs.eraseDups.Pairwise fun u w => (vs ++ [v]).idxOf u < (vs ++ [v]).idxOf w := by
      refine ih.imp_of_mem fun {u w} hu hw h => ?_
      rwa [List.idxOf_append_of_mem (List.mem_eraseDups.1 hu),
        List.idxOf_append_of_mem (List.mem_eraseDups.1 hw)]
    rw [List.eraseDups_append]
    by_cases hv : v ∈ vs
    · simpa [List.removeAll, hv] using hfront
    · have hlast : ([v].removeAll vs).eraseDups = [v] := by
        simp [List.removeAll, hv, List.eraseDups_cons]
      rw [hlast, List.pairwise_append]
      refine ⟨hfront, List.pairwise_singleton _ _, fun u hu w hw => ?_⟩
      have hu := List.mem_eraseDups.1 hu
      rw [List.mem_singleton.1 hw, List.idxOf_append_of_mem hu, List.idxOf_append_of_notMem hv]
      exact (List.idxOf_lt_length_of_mem hu).trans_le (Nat.le_add_right _ _)

/-! ## Sums of cells -/

namespace Weights

variable {α : Type} [Scalar α]

/-- What is added to a cell are the weights that have its number. -/
theorem foldl_cell (h : Scalar.Lossless α) (cells : List (Nat × α)) (i : Nat) (sum : α) :
    cells.foldl (fun sum (j, p) => if j = i then sum + p else sum) sum =
      sum + ((cells.filter (·.1 == i)).map Prod.snd).sum := by
  induction cells generalizing sum with
  | nil => exact (h.add_zero sum).symm
  | cons x cells ih =>
    rw [List.foldl_cons, ih, List.filter_cons]
    by_cases hx : x.1 = i
    · simp [hx, h.add_assoc]
    · simp [hx]

/-- Zeros need not be added. -/
theorem sum_filter_ne_zero [LawfulBEq α] (h : Scalar.Lossless α) (ws : List (α × Nat)) :
    ((ws.filter (·.1 != 0)).map Prod.fst).sum = (ws.map Prod.fst).sum := by
  induction ws with
  | nil => rfl
  | cons w ws ih =>
    rw [List.filter_cons]
    by_cases hw : w.1 = 0
    · simp [hw, ih, h.zero_add]
    · simp [hw, ih]

end Weights

/-! ## Answers and lists -/

namespace Marginal

variable {α : Type} {m : Marginal α} {states : List Nat} {p : α}

/-- A number of states for each variable, and a probability for each assignment
    to the variables. -/
structure Shaped (m : Marginal α) : Prop where
  length_cardinalities : m.cardinalities.length = m.vars.length
  length_probs : m.probs.length = MixedRadix.size m.cardinalities

/-- What is answered. -/
theorem Shaped.get?_eq_some_iff (hm : m.Shaped) : m.get? states = some p ↔
    MixedRadix.Below m.cardinalities states ∧
      m.probs[MixedRadix.value m.cardinalities states]? = some p := by
  have hbelow : MixedRadix.Below m.cardinalities states ↔ states.length = m.vars.length ∧
      (states.zip m.cardinalities).all fun x => x.1 < x.2 := by
    rw [MixedRadix.Below, List.forall₂_iff_zip, hm.length_cardinalities, List.all_eq_true]
    simp
  rw [get?]
  split_ifs with h
  · rw [and_iff_right (hbelow.2 h)]
  · exact iff_of_false (by simp) fun hp => h (hbelow.1 hp.1)

theorem Shaped.isSome_get?_iff (hm : m.Shaped) :
    (m.get? states).isSome ↔ MixedRadix.Below m.cardinalities states := by
  rw [Option.isSome_iff_exists]
  refine ⟨fun ⟨p, hp⟩ => (hm.get?_eq_some_iff.1 hp).1, fun h => ?_⟩
  have hlt := hm.length_probs ▸ MixedRadix.value_lt_size h
  exact ⟨_, hm.get?_eq_some_iff.2 ⟨h, List.getElem?_eq_getElem hlt⟩⟩

/-- What is listed at a place. -/
theorem getElem?_entries {i : Nat} : m.entries[i]? = some (states, p) ↔
    states = MixedRadix.digits m.cardinalities i ∧ m.probs[i]? = some p := by
  rw [entries, List.getElem?_mapIdx]
  cases m.probs[i]? <;> simp [eq_comm]

/-- **The list has all answers.** -/
theorem Shaped.mem_entries_iff (hm : m.Shaped) :
    (states, p) ∈ m.entries ↔ m.get? states = some p := by
  rw [hm.get?_eq_some_iff, List.mem_iff_getElem?]
  constructor
  · rintro ⟨i, hi⟩
    obtain ⟨rfl, hp⟩ := getElem?_entries.1 hi
    have hlt : i < MixedRadix.size m.cardinalities :=
      hm.length_probs ▸ (List.getElem?_eq_some_iff.1 hp).1
    exact ⟨MixedRadix.below_digits hlt, by rwa [MixedRadix.value_digits hlt]⟩
  · rintro ⟨hbelow, hp⟩
    exact ⟨_, getElem?_entries.2 ⟨(MixedRadix.digits_value hbelow).symm, hp⟩⟩

/-- It is in the order of numbers. -/
theorem Shaped.map_forward_entries (hm : m.Shaped) :
    m.entries.map (fun x => MixedRadix.forward m.cardinalities x.1) =
      List.range m.probs.length := by
  refine List.ext_getElem (by simp [entries]) fun i hi hi' => ?_
  have hlt : i < MixedRadix.size m.cardinalities := by
    simpa [entries, hm.length_probs] using hi
  simp [entries, MixedRadix.forward_eq (MixedRadix.length_digits _ _),
    MixedRadix.value_digits hlt]

end Marginal

/-! ## States of some variables -/

/-- An assignment has given states of variables if it agrees with one constraint
    for each of them. -/
theorem Distribution.agrees_zipWith_iff {radices vars states : List Nat} {i : Nat}
    (h : states.length = vars.length) :
    agrees radices (List.zipWith Constraint.mk vars states) i ↔
      vars.map (MixedRadix.digit radices · i) = states := by
  induction vars generalizing states with
  | nil => simp_all [agrees]
  | cons v vars ih =>
    obtain ⟨s, states, rfl⟩ := List.exists_cons_of_length_eq_add_one h
    have ih := @ih states (by simpa using h)
    simp only [agrees] at ih
    simp [agrees, ih]

namespace Catalog

variable {c : Catalog} {vars : List Nat}

/-- The states of variables in a numbered assignment are below the numbers of
    their states. -/
theorem below_map_stateAt (hvars : ∀ v ∈ vars, v < c.vars.length) {i : Nat} (hi : i < c.size) :
    MixedRadix.Below (vars.map c.cardinalityAt) (vars.map (c.stateAt i)) := by
  rw [MixedRadix.Below, List.forall₂_map_left_iff, List.forall₂_map_right_iff, List.forall₂_same]
  intro v hv
  have hlt : v < c.cardinalities.length := by simpa [cardinalities] using hvars v hv
  have hget := List.getElem?_eq_getElem hlt
  rw [cardinalityAt, hget, Option.getD_some]
  exact MixedRadix.digit_lt hi hget

/-- The states of all variables in a numbered assignment. -/
theorem map_stateAt_range (c : Catalog) (i : Nat) :
    (List.range c.vars.length).map (c.stateAt i) = c.decode i := by
  have hlen : (c.decode i).length = c.vars.length := by
    simp [decode, MixedRadix.length_digits, cardinalities]
  refine List.ext_getElem (by simp [hlen]) fun v hv hv' => ?_
  have hget := MixedRadix.getElem?_digits c.cardinalities i v
    (by simpa [decode, MixedRadix.length_digits] using hv')
  rw [List.getElem_map, List.getElem_range]
  exact Option.some_inj.1 (hget.symm.trans (List.getElem?_eq_getElem hv'))

end Catalog

namespace Distribution

/-- Numbered probabilities have the numbers of assignments. -/
theorem lt_size_of_mem_zipIdx {α : Type} {d : Distribution α} {x : α × Nat}
    (hx : x ∈ d.probs.zipIdx) : x.2 < d.catalog.size := by
  rw [← d.length_probs]
  exact (List.getElem?_eq_some_iff.1 (List.mem_zipIdx_iff_getElem?.1 hx)).1

section

variable {α : Type} [Scalar α] {d : Distribution α} {vars states : List Nat}

/-- Variables that exist have a marginal distribution. -/
theorem marginal_eq_ok (hvars : ∀ v ∈ vars, v < d.catalog.vars.length) :
    d.marginal vars = .ok (d.marginalOf vars.eraseDups) := by
  have hnone : vars.find? (d.catalog.vars.length ≤ ·) = none :=
    List.find?_eq_none.2 fun v hv => by simpa using hvars v hv
  rw [marginal, checkVariables, hnone]
  rfl

/-- Each cell of a marginal distribution has the sum over the assignments whose
    states have its number. -/
theorem probs_marginalOf [LawfulBEq α] (h : Scalar.Lossless α) (d : Distribution α)
    (vars : List Nat) : (d.marginalOf vars).probs =
      (List.range (MixedRadix.size (vars.map d.catalog.cardinalityAt))).map fun l =>
        ((d.probs.zipIdx.filter fun x => MixedRadix.value (vars.map d.catalog.cardinalityAt)
          (vars.map (d.catalog.stateAt x.2)) == l).map Prod.fst).sum := by
  refine List.map_congr_left fun l _ => ?_
  rw [Weights.foldl_cell h, h.zero_add, projected, List.filter_map, List.map_map,
    ← Weights.sum_filter_ne_zero h, List.filter_filter, List.filter_filter]
  simp only [Bool.and_comm]
  rfl

/-- **The probabilities of a marginal distribution are masses.** -/
theorem getElem?_marginalOf [LawfulBEq α] (h : Scalar.Lossless α)
    (hvars : ∀ v ∈ vars, v < d.catalog.vars.length)
    (hstates : MixedRadix.Below (vars.map d.catalog.cardinalityAt) states) :
    (d.marginalOf vars).probs[MixedRadix.value (vars.map d.catalog.cardinalityAt) states]? =
      some (d.mass (List.zipWith Constraint.mk vars states)) := by
  have hlen : states.length = vars.length := by simpa using hstates.length_eq
  have hfilter : (d.probs.zipIdx.filter fun x =>
      MixedRadix.value (vars.map d.catalog.cardinalityAt) (vars.map (d.catalog.stateAt x.2)) ==
        MixedRadix.value (vars.map d.catalog.cardinalityAt) states) =
      d.probs.zipIdx.filter fun x =>
        agrees d.catalog.cardinalities (List.zipWith Constraint.mk vars states) x.2 := by
    refine List.filter_congr fun x hx => ?_
    have hbelow := Catalog.below_map_stateAt hvars (lt_size_of_mem_zipIdx hx)
    rw [Bool.eq_iff_iff, beq_iff_eq, agrees_zipWith_iff hlen]
    exact ⟨MixedRadix.eq_of_value_eq hbelow hstates, fun h => congrArg _ h⟩
  rw [probs_marginalOf h, List.getElem?_map, List.getElem?_range (MixedRadix.value_lt_size hstates),
    Option.map_some, hfilter, mass_eq, Weights.compensatedSum_of_lossless h]

end

variable {d : Distribution ℚ} {vars : List Nat}

/-- The marginal distribution of all variables in their order is the whole
    table. -/
theorem probs_marginalOf_range (d : Distribution ℚ) :
    (d.marginalOf (List.range d.catalog.vars.length)).probs = d.probs := by
  have hcell : ∀ l, (d.probs.zipIdx.filter fun x => MixedRadix.value d.catalog.cardinalities
      (d.catalog.decode x.2) == l) = d.probs.zipIdx.filter fun x => x.2 == l := by
    intro l
    refine List.filter_congr fun x hx => ?_
    rw [Catalog.decode, MixedRadix.value_digits (lt_size_of_mem_zipIdx hx)]
  rw [probs_marginalOf Scalar.lossless_rat]
  simp only [Catalog.map_cardinalityAt_range, Catalog.map_stateAt_range, hcell]
  refine List.ext_getElem (by simp [d.length_probs, Catalog.size]) fun l hl hl' => ?_
  rw [List.getElem_map, List.getElem_range]
  refine (Weights.sum_filter_zipIdx d.probs (· == l) 0).trans ?_
  simp [hl']

/-- What a marginal distribution tells about variables. -/
structure SumsOut (d : Distribution ℚ) (vars : List Nat) (m : Marginal ℚ) : Prop where
  /-- It is about the given variables. -/
  mem_vars_iff {v : Nat} : v ∈ m.vars ↔ v ∈ vars
  /-- Each of them comes once, in the order of the first places. -/
  pairwise_vars : m.vars.Pairwise fun u v => vars.idxOf u < vars.idxOf v
  cardinalities_eq : m.cardinalities = m.vars.map d.catalog.cardinalityAt
  /-- There are not more probabilities than in the whole table. -/
  length_probs_le : m.probs.length ≤ d.probs.length
  /-- What can be asked for are states of all its variables that exist. -/
  isSome_get?_iff {states : List Nat} : (m.get? states).isSome ↔
    states.length = m.vars.length ∧
      ∀ x ∈ List.zipWith Constraint.mk m.vars states, x.state < d.catalog.cardinalityAt x.var
  /-- The answer is the probability that the variables have these states. -/
  probability_eq {states : List Nat} {p : ℚ} (h : m.get? states = some p) :
    d.probability (List.zipWith Constraint.mk m.vars states) = .ok p
  /-- It stands at the number of the states, taken in from the first variable on. -/
  getElem?_forward {states : List Nat} {p : ℚ} (h : m.get? states = some p) :
    m.probs[MixedRadix.forward m.cardinalities states]? = some p
  /-- The same answers are listed, -/
  mem_entries_iff {states : List Nat} {p : ℚ} : (states, p) ∈ m.entries ↔ m.get? states = some p
  /-- in the order of the numbers of states, and so each once, -/
  map_forward_entries : m.entries.map (fun x => MixedRadix.forward m.cardinalities x.1) =
    List.range m.probs.length
  /-- and their states are those that the numbers give off from the last variable
      on. -/
  states_eq_backward {i : Nat} {states : List Nat} {p : ℚ}
    (h : m.entries[i]? = some (states, p)) : states = (MixedRadix.backward m.cardinalities i).2
  /-- About all variables in their order it tells the whole table. -/
  probs_eq (h : vars = List.range d.catalog.vars.length) : m.probs = d.probs

/-- The states of variables exist if there is one for each of them, below the
    number of its states. -/
theorem below_map_cardinalityAt_iff {c : Catalog} {states : List Nat} :
    MixedRadix.Below (vars.map c.cardinalityAt) states ↔ states.length = vars.length ∧
      ∀ x ∈ List.zipWith Constraint.mk vars states, x.state < c.cardinalityAt x.var := by
  rw [MixedRadix.Below, List.forall₂_map_right_iff]
  induction vars generalizing states with
  | nil => simp
  | cons v vars ih => cases states <;> simp [ih, and_left_comm]

theorem shaped_marginalOf (d : Distribution ℚ) (vars : List Nat) : (d.marginalOf vars).Shaped :=
  ⟨by simp [marginalOf], by simp [marginalOf]⟩

theorem sumsOut (hpos : 0 < d.catalog.size) (hvars : ∀ v ∈ vars, v < d.catalog.vars.length) :
    d.SumsOut vars (d.marginalOf vars.eraseDups) := by
  have hmem (v : Nat) : v ∈ vars.eraseDups ↔ v ∈ vars := List.mem_eraseDups
  have hfirst := pairwise_idxOf_eraseDups vars
  have hnodup : vars.eraseDups.Nodup := hfirst.imp fun h heq => h.ne (by rw [heq])
  have hexist : ∀ v ∈ vars.eraseDups, v < d.catalog.vars.length :=
    fun v hv => hvars v ((hmem v).1 hv)
  have hshaped := d.shaped_marginalOf vars.eraseDups
  constructor
  case mem_vars_iff => exact hmem _
  case pairwise_vars => exact hfirst
  case cardinalities_eq => rfl
  case length_probs_le =>
    rw [hshaped.length_probs, d.length_probs, MixedRadix.size_eq_prod]
    exact Nat.le_of_dvd hpos (Catalog.prod_cardinalityAt_dvd_size hnodup hexist)
  case isSome_get?_iff =>
    intro states
    exact hshaped.isSome_get?_iff.trans below_map_cardinalityAt_iff
  case probability_eq =>
    intro states p h
    obtain ⟨hbelow, hp⟩ := hshaped.get?_eq_some_iff.1 h
    have hadmits : d.catalog.Admits (List.zipWith Constraint.mk vars.eraseDups states) :=
      fun x hx => Catalog.lt_cardinalityAt_iff.1 ((below_map_cardinalityAt_iff.1 hbelow).2 x hx)
    have hmass := getElem?_marginalOf Scalar.lossless_rat hexist hbelow
    rw [Option.some_inj.1 (hp.symm.trans hmass)]
    exact probability_eq_ok hadmits
  case getElem?_forward =>
    intro states p h
    obtain ⟨hbelow, hp⟩ := hshaped.get?_eq_some_iff.1 h
    rwa [MixedRadix.forward_eq hbelow.length_eq]
  case mem_entries_iff => exact hshaped.mem_entries_iff
  case map_forward_entries => exact hshaped.map_forward_entries
  case states_eq_backward =>
    intro i states p h
    rw [MixedRadix.backward_eq]
    exact (Marginal.getElem?_entries.1 h).1
  case probs_eq =>
    rintro rfl
    rw [eraseDups_eq_self List.nodup_range, probs_marginalOf_range]

/-- **The marginal distribution of variables**: variables that exist have one,
    in whatever order and however often they are given. -/
theorem exists_marginal (hpos : 0 < d.catalog.size)
    (hvars : ∀ v ∈ vars, v < d.catalog.vars.length) :
    ∃ m, d.marginal vars = .ok m ∧ d.SumsOut vars m :=
  ⟨_, marginal_eq_ok hvars, sumsOut hpos hvars⟩

/-- Three variables, two of them asked for, the last one twice. -/
theorem exists_marginal_twice :
    let sky : Variable := ⟨"Sky", ["Clear", "Grey", "Dark"]⟩
    let d : Distribution ℚ := ⟨.of [sky, .boolean "Wind", .boolean "Late"],
      [1/4, 1/8, 0, 1/8, 1/16, 1/16, 1/8, 0, 0, 1/4, 0, 0], rfl⟩
    0 < d.catalog.size ∧ (∀ v ∈ [2, 0, 2], v < d.catalog.vars.length) ∧
      ∃ m, d.marginal [2, 0, 2] = .ok m ∧ d.SumsOut [2, 0, 2] m ∧ m.vars = [2, 0] ∧
        m.probs = [1/4, 3/16, 0, 1/4, 1/16, 1/4] := by
  intro sky d
  have hpos : 0 < d.catalog.size := by decide
  have hvars : ∀ v ∈ [2, 0, 2], v < d.catalog.vars.length := by decide
  obtain ⟨m, hm, hsums⟩ := exists_marginal hpos hvars
  have heq : m = d.marginalOf [2, 0] := (Except.ok.inj (hm.symm.trans (by rfl)))
  exact ⟨hpos, hvars, m, hm, hsums, by rw [heq]; rfl, by rw [heq]; decide +kernel⟩

end Distribution

end JointProb
