/-
  JointProb — entries by name.

      Rain=1, Sky=Grey, Late=yes, Sky=1

  Names with states that describe one assignment in full lead to its entry at
  once.  Answers by name look for the assignments that agree with the states:
  here that is this one.

  * `Catalog.Gives` says which constraint a name with a state stands for, and
    `Catalog.resolve_eq_ok_iff` that it is found;
  * `Distribution.consistent_eq_ok_iff`: the constraints are gathered, and
    `Distribution.assignment_eq_ok_iff`: they make up an assignment if each
    variable has one;
  * `Distribution.jointOf_eq_ok_iff`: so names with states lead to the entry of
    the assignment that they describe;
  * `Distribution.leadsToEntry`: when they lead to one, and that it is found in
    the other ways as well.
-/
import JointProb.Proofs.Catalog.Gathered
import JointProb.Proofs.Catalog.InStep
import JointProb.Proofs.Distribution

namespace JointProb

/-! ## Names with states -/

namespace Catalog

variable {c : Catalog} {name state : String} {x y : Constraint}

/-- The constraint that a name with a state stands for. -/
def Gives (c : Catalog) (named : String × String) (x : Constraint) : Prop :=
  ∃ v, c.vars[x.var]? = some v ∧ v.name = named.1 ∧ v.resolve? named.2 = some x.state

theorem Gives.unique (hc : c.InStep) {named : String × String} (hx : c.Gives named x)
    (hy : c.Gives named y) : x = y := by
  obtain ⟨v, hv, hname, hstate⟩ := hx
  obtain ⟨w, hw, hname', hstate'⟩ := hy
  obtain ⟨i, s⟩ := x
  obtain ⟨j, t⟩ := y
  obtain ⟨rfl, rfl⟩ : i = j ∧ v = w := hc.eq_of_name_eq hv hw (hname.trans hname'.symm)
  exact congrArg _ (Option.some_inj.1 (hstate.symm.trans hstate'))

/-- It is about a variable and a state that there are. -/
theorem Gives.lt {named : String × String} (h : c.Gives named x) :
    ∃ v, c.vars[x.var]? = some v ∧ x.state < v.cardinality := by
  obtain ⟨v, hv, -, hstate⟩ := h
  exact ⟨v, hv, v.lt_of_resolve? hstate⟩

/-- **What a name with a state stands for is found.** -/
theorem resolve_eq_ok_iff (hc : c.InStep) :
    c.resolve name state = .ok x ↔ c.Gives (name, state) x := by
  constructor
  · intro h
    rw [resolve] at h
    split at h
    · cases h
    next v hv =>
    split at h
    · cases h
    next s hs =>
    cases h
    obtain ⟨hget, hname⟩ := hc.named?_eq_some_iff.1 hv
    exact ⟨v.toVariable, hget, hname, hs⟩
  · rintro ⟨v, hv, hname, hstate⟩
    simp only [resolve, hc.named?_eq_some_iff.2 ⟨hv, hname⟩, hstate]

end Catalog

namespace Distribution

variable {α : Type} {d : Distribution α} {named : List (String × String)}
  {seen xs ys fixed : List Constraint} {states : List Nat}

/-! ## Assignments -/

theorem resolve_eq_ok_iff (hd : d.catalog.InStep) : d.resolve named = .ok fixed ↔
    List.Forall₂ d.catalog.Gives named fixed := by
  rw [resolve, mapM_eq_ok]
  simp only [Catalog.resolve_eq_ok_iff hd]

/-- **Constraints are gathered.** -/
theorem consistent_eq_ok_iff (hseen : (seen.map Constraint.var).Nodup) :
    d.consistent seen xs = .ok ys ↔ Constraint.Gathers seen xs ys := by
  induction xs generalizing seen with
  | nil =>
    constructor
    · rintro ⟨⟩
      exact .done
    · rintro ⟨⟩
      rfl
  | cons x xs ih =>
    rw [consistent]
    constructor
    · intro h
      split at h
      · next hnone =>
        have hnew := Constraint.find?_eq_none_iff.1 hnone
        exact .new hnew ((ih (Constraint.nodup_concat hseen hnew)).1 h)
      · next y hy =>
        split_ifs at h with hstate
        obtain ⟨hmem, hvar⟩ := (Constraint.find?_eq_some_iff hseen).1 hy
        have hsame : y = x := congrArg₂ Constraint.mk hvar hstate
        exact .again (hsame ▸ hmem) ((ih hseen).1 h)
    · intro h
      cases h with
      | new hnew hrest =>
        rw [Constraint.find?_eq_none_iff.2 hnew]
        exact (ih (Constraint.nodup_concat hseen hnew)).2 hrest
      | again hmem hrest =>
        rw [(Constraint.find?_eq_some_iff hseen).2 ⟨hmem, rfl⟩]
        simp only [if_true]
        exact (ih hseen).2 hrest

/-- **Constraints make up an assignment** if each variable has one. -/
theorem assignment_eq_ok_iff (hfixed : (fixed.map Constraint.var).Nodup) :
    d.assignment fixed = .ok states ↔ states.length = d.catalog.vars.length ∧
      ∀ i s, states[i]? = some s → ⟨i, s⟩ ∈ fixed := by
  rw [assignment, mapM_eq_ok, List.forall₂_iff_get]
  constructor
  · rintro ⟨hlength, h⟩
    rw [List.length_zipIdx] at hlength
    refine ⟨hlength.symm, fun i s hs => ?_⟩
    obtain ⟨hi, rfl⟩ := List.getElem?_eq_some_iff.1 hs
    have hstep := h i (by rwa [List.length_zipIdx, hlength]) hi
    simp only [List.get_eq_getElem, List.getElem_zipIdx, Nat.zero_add] at hstep
    split at hstep
    · next x hx =>
      obtain ⟨hmem, rfl⟩ := (Constraint.find?_eq_some_iff hfixed).1 hx
      exact Except.ok.inj hstep ▸ hmem
    · cases hstep
  · rintro ⟨hlength, h⟩
    refine ⟨by rw [List.length_zipIdx, hlength], fun i hi hi' => ?_⟩
    have hmem := h i _ (List.getElem?_eq_getElem hi')
    simp only [List.get_eq_getElem, List.getElem_zipIdx, Nat.zero_add,
      (Constraint.find?_eq_some_iff hfixed).2 ⟨hmem, rfl⟩]

/-! ## What names with states describe -/

/-- Names with states describe an assignment in full: the one with the states of
    the constraints that they stand for. -/
structure Describes (d : Distribution α) (named : List (String × String)) (states : List Nat) :
    Prop where
  exists_gives : ∀ pair ∈ named, ∃ x, d.catalog.Gives pair x
  length_eq : states.length = d.catalog.vars.length
  getElem?_eq_iff {i s : Nat} :
    states[i]? = some s ↔ ∃ pair ∈ named, d.catalog.Gives pair ⟨i, s⟩

/-- The states are below the numbers of states of their variables. -/
theorem Describes.below (h : d.Describes named states) :
    MixedRadix.Below d.catalog.cardinalities states := by
  have hlength : states.length = d.catalog.cardinalities.length := by
    rw [h.length_eq, Catalog.cardinalities, List.length_map]
  refine List.forall₂_iff_get.2 ⟨hlength, fun i hi hi' => ?_⟩
  obtain ⟨pair, -, hgives⟩ := h.getElem?_eq_iff.1 (List.getElem?_eq_getElem hi)
  obtain ⟨v, hv, hlt⟩ := hgives.lt
  obtain ⟨hvar, rfl⟩ := List.getElem?_eq_some_iff.1 hv
  simpa [Catalog.cardinalities] using hlt

theorem Describes.encode_lt (h : d.Describes named states) :
    d.catalog.encode states < d.probs.length := by
  rw [d.length_probs]
  exact MixedRadix.value_lt_size h.below

/-- **When names with states describe an assignment.** -/
theorem exists_describes_iff : (∃ states, d.Describes named states) ↔
    (∀ pair ∈ named, ∃ x, d.catalog.Gives pair x) ∧
      (∀ pair ∈ named, ∀ pair' ∈ named, ∀ x y, d.catalog.Gives pair x → d.catalog.Gives pair' y →
        x.var = y.var → x.state = y.state) ∧
      ∀ i < d.catalog.vars.length, ∃ pair ∈ named, ∃ x, d.catalog.Gives pair x ∧ x.var = i := by
  constructor
  · rintro ⟨states, h⟩
    refine ⟨h.exists_gives, fun pair hpair pair' hpair' x y hx hy hvar => ?_, fun i hi => ?_⟩
    · have hstate := h.getElem?_eq_iff.2 ⟨pair, hpair, hx⟩
      rw [hvar, h.getElem?_eq_iff.2 ⟨pair', hpair', hy⟩] at hstate
      exact (Option.some_inj.1 hstate).symm
    · rw [← h.length_eq] at hi
      obtain ⟨pair, hpair, hx⟩ := h.getElem?_eq_iff.1 (List.getElem?_eq_getElem hi)
      exact ⟨pair, hpair, _, hx, rfl⟩
  · rintro ⟨hgives, hconsistent, hall⟩
    have hstate (i : Nat) (hi : i ∈ List.range d.catalog.vars.length) :
        ∃ s, ∃ pair ∈ named, d.catalog.Gives pair ⟨i, s⟩ := by
      obtain ⟨pair, hpair, ⟨_, s⟩, hx, rfl⟩ := hall i (List.mem_range.1 hi)
      exact ⟨s, pair, hpair, hx⟩
    obtain ⟨states, hstates⟩ := exists_forall₂ hstate
    obtain ⟨hlength, hstates⟩ := List.forall₂_iff_get.1 hstates
    rw [List.length_range] at hlength
    have hgot {i s : Nat} (hs : states[i]? = some s) :
        ∃ pair ∈ named, d.catalog.Gives pair ⟨i, s⟩ := by
      obtain ⟨hi, rfl⟩ := List.getElem?_eq_some_iff.1 hs
      simpa using hstates i (by simpa [hlength] using hi) hi
    refine ⟨states, hgives, hlength.symm, fun {i s} => ⟨hgot, ?_⟩⟩
    rintro ⟨pair, hpair, hx⟩
    obtain ⟨v, hv, -⟩ := hx.lt
    have hlt : i < states.length := hlength ▸ (List.getElem?_eq_some_iff.1 hv).1
    obtain ⟨pair', hpair', hx'⟩ := hgot (List.getElem?_eq_getElem hlt)
    have hstate : s = states[i] := hconsistent pair hpair pair' hpair' _ _ hx hx' rfl
    rw [List.getElem?_eq_getElem hlt, hstate]

/-- **The assignment that is described is found.** -/
theorem states_eq_ok_iff (hd : d.catalog.InStep) :
    ((d.resolve named).bind fun fixed => (d.consistent [] fixed).bind d.assignment) = .ok states ↔
      d.Describes named states := by
  have hnil : (([] : List Constraint).map Constraint.var).Nodup := List.nodup_nil
  -- what has been gathered of what the pairs stand for
  have hmem {fixed ys : List Constraint} (hfixed : List.Forall₂ d.catalog.Gives named fixed)
      (hys : Constraint.Gathers [] fixed ys) {x : Constraint} :
      x ∈ ys ↔ ∃ pair ∈ named, d.catalog.Gives pair x := by
    rw [hys.mem_iff, mem_iff_of_forall₂ hfixed fun _ _ _ => Catalog.Gives.unique hd]
    simp
  constructor
  · intro h
    obtain ⟨fixed, hfixed, h⟩ := bind_eq_ok.1 h
    obtain ⟨ys, hys, hstates⟩ := bind_eq_ok.1 h
    rw [resolve_eq_ok_iff hd] at hfixed
    rw [consistent_eq_ok_iff hnil] at hys
    have hnodup := hys.nodup hnil
    obtain ⟨hlength, hstates⟩ := (assignment_eq_ok_iff hnodup).1 hstates
    refine ⟨fun pair hpair => ?_, hlength, fun {i s} => ⟨fun hs => (hmem hfixed hys).1
      (hstates i s hs), fun hgives => ?_⟩⟩
    · obtain ⟨x, -, hx⟩ := exists_right_of_forall₂ hfixed hpair
      exact ⟨x, hx⟩
    · have hx := (hmem hfixed hys).2 hgives
      obtain ⟨pair, -, hpair⟩ := hgives
      obtain ⟨v, hv, -⟩ := hpair.lt
      have hlt : i < states.length := hlength ▸ (List.getElem?_eq_some_iff.1 hv).1
      have hget := List.getElem?_eq_getElem hlt
      have hsame := Constraint.eq_of_var_eq hnodup (hstates i _ hget) hx rfl
      exact hget.trans (congrArg (some ∘ Constraint.state) hsame)
  · intro h
    obtain ⟨fixed, hfixed⟩ := exists_forall₂ h.exists_gives
    have hstate {x : Constraint} (hx : x ∈ fixed) : states[x.var]? = some x.state :=
      h.getElem?_eq_iff.2 (exists_left_of_forall₂ hfixed hx)
    have hconsistent : Constraint.Consistent ([] ++ fixed) := by
      intro x hx y hy hvar
      have hsame := (hstate hx).symm.trans (hvar ▸ hstate hy)
      exact Option.some_inj.1 hsame
    obtain ⟨ys, hys⟩ := (Constraint.exists_gathers_iff hnil).2 hconsistent
    refine bind_eq_ok.2 ⟨fixed, (resolve_eq_ok_iff hd).2 hfixed, bind_eq_ok.2 ⟨ys,
      (consistent_eq_ok_iff hnil).2 hys, (assignment_eq_ok_iff (hys.nodup hnil)).2
        ⟨h.length_eq, fun i s hs => (hmem hfixed hys).2 (h.getElem?_eq_iff.1 hs)⟩⟩⟩

/-! ## Entries -/

/-- The entries pair each assignment with the probability at its number. -/
theorem mem_entries_iff (h : MixedRadix.Below d.catalog.cardinalities states) {q : α} :
    (states, q) ∈ d.entries ↔ d.probs[d.catalog.encode states]? = some q := by
  rw [entries, List.mem_mapIdx, List.getElem?_eq_some_iff]
  constructor
  · rintro ⟨i, hi, heq⟩
    obtain ⟨rfl, rfl⟩ := Prod.mk.inj heq
    have hnumber : d.catalog.encode (d.catalog.decode i) = i :=
      MixedRadix.value_digits (hi.trans_eq d.length_probs)
    exact ⟨by rwa [hnumber], by simp only [hnumber]⟩
  · rintro ⟨hlt, rfl⟩
    exact ⟨_, hlt, congrArg (·, _) (MixedRadix.digits_value h)⟩

variable [Scalar α]

/-- **Names with states lead to the entry of the assignment that they
    describe.** -/
theorem jointOf_eq_ok_iff (hd : d.catalog.InStep) {p : α} : d.jointOf named = .ok p ↔
    ∃ states, d.Describes named states ∧ d.probs[d.catalog.encode states]? = some p := by
  have hget {states : List Nat} (h : d.Describes named states) :
      d.probs[d.catalog.encode states]? = some ((d.probs[d.catalog.encode states]?).getD 0) := by
    rw [List.getElem?_eq_getElem h.encode_lt, Option.getD_some]
  rw [jointOf, mapError_eq_ok, map_eq_ok]
  refine exists_congr fun states => ?_
  rw [states_eq_ok_iff hd]
  exact and_congr_right fun h => by rw [← Option.some_inj, ← hget h]

/-- What can be said of the entry that names with states lead to. -/
structure LeadsToEntry (d : Distribution α) (named : List (String × String)) : Prop where
  /-- There is one if each pair stands for a constraint, no two of them give a
      variable different states, and each variable is named. -/
  exists_jointOf_iff : (∃ p, d.jointOf named = .ok p) ↔
    (∀ pair ∈ named, ∃ x, d.catalog.Gives pair x) ∧
      (∀ pair ∈ named, ∀ pair' ∈ named, ∀ x y, d.catalog.Gives pair x → d.catalog.Gives pair' y →
        x.var = y.var → x.state = y.state) ∧
      ∀ i < d.catalog.vars.length, ∃ pair ∈ named, ∃ x, d.catalog.Gives pair x ∧ x.var = i
  /-- It stands at the number of the assignment with the states of the pairs, and
      is what is listed with this assignment. -/
  exists_states {p : α} (h : d.jointOf named = .ok p) :
    ∃ states, MixedRadix.Below d.catalog.cardinalities states ∧
      (∀ i s, states[i]? = some s ↔ ∃ pair ∈ named, d.catalog.Gives pair ⟨i, s⟩) ∧
      d.probs[d.catalog.encode states]? = some p ∧ ∀ q, (states, q) ∈ d.entries ↔ q = p
  /-- When nothing is rounded it is the probability of the pairs. -/
  probabilityOf_eq (hlossless : Scalar.Lossless α) {p : α} (h : d.jointOf named = .ok p) :
    d.probabilityOf named = .ok p

/-- **Names with states that describe an assignment in full lead to its entry**,
    whatever their order, repetitions and spelling. -/
theorem leadsToEntry (hd : d.catalog.InStep) (named : List (String × String)) :
    d.LeadsToEntry named where
  exists_jointOf_iff := by
    rw [← exists_describes_iff]
    constructor
    · rintro ⟨p, h⟩
      obtain ⟨states, h, -⟩ := (jointOf_eq_ok_iff hd).1 h
      exact ⟨states, h⟩
    · rintro ⟨states, h⟩
      exact ⟨_, (jointOf_eq_ok_iff hd).2 ⟨states, h, List.getElem?_eq_getElem h.encode_lt⟩⟩
  exists_states {_} h := by
    obtain ⟨states, h, hp⟩ := (jointOf_eq_ok_iff hd).1 h
    refine ⟨states, h.below, fun i s => h.getElem?_eq_iff, hp, fun q => ?_⟩
    rw [mem_entries_iff h.below, hp, Option.some_inj, eq_comm]
  probabilityOf_eq hlossless {_} h := by
    obtain ⟨states, h, hp⟩ := (jointOf_eq_ok_iff hd).1 h
    obtain ⟨fixed, hfixed⟩ := exists_forall₂ h.exists_gives
    have hfull (x : Constraint) : x ∈ fixed ↔ states[x.var]? = some x.state := by
      rw [mem_iff_of_forall₂ hfixed fun _ _ _ => Catalog.Gives.unique hd, h.getElem?_eq_iff]
    rw [probabilityOf, (resolve_eq_ok_iff hd).2 hfixed, Except.map,
      mass_of_full hlossless h.below hfull hp]
    rfl

/-- The pairs of the header of this file, and the same without `Late`. -/
theorem leadsToEntry_late :
    let d : Distribution ℚ := ⟨.of [.boolean "Rain", ⟨"Sky", ["Clear", "Grey"]⟩,
      ⟨"Late", ["no", "yes"]⟩], [1/8, 1/8, 0, 1/4, 1/8, 1/8, 1/16, 3/16], rfl⟩
    d.catalog.InStep ∧
      d.jointOf [("Rain", "1"), ("Sky", "Grey"), ("Late", "yes"), ("Sky", "1")] = .ok (3/16) ∧
      d.LeadsToEntry [("Rain", "1"), ("Sky", "Grey"), ("Late", "yes"), ("Sky", "1")] ∧
      d.jointOf [("Rain", "1"), ("Sky", "Grey"), ("Sky", "1")] =
        .error (.query (.stateNeeded "Late" 2)) := by
  intro d
  have hd : d.catalog.InStep := Catalog.inStep_of (by decide)
  exact ⟨hd, by decide +kernel, leadsToEntry hd _, by decide +kernel⟩

end Distribution

end JointProb
