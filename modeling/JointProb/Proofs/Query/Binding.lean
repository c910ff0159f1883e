/-
  JointProb — what the entries on one side of a bar denote.

      Rain, ~Late, Sky=Grey, Late=no, Not(Late), Rain

  * `Variable.Meant` is the state that an entry for a variable means, and
    `VarSpec.Denotes` the constraint that it denotes, whatever stands beside it;
  * `VarSpec.exists_bind_iff`: an entry is bound to what it denotes;
  * `exists_bindAfter_iff`: the entries on a side are bound to what their
    constraints gather into;
  * `exists_bindSide_iff`: so they are bound unless one of them denotes nothing
    or two contradict each other; `mem_constraints_iff`: what they are bound to
    is what they denote;
  * `SidesAgree` holds of sides that denote the same, in whatever order, number
    and spelling; `SidesAgree.bindSide_agree`: they are bound to the same
    constraints, or neither is bound.
-/
import JointProb.Proofs.Catalog.Gathered
import JointProb.Proofs.Query.Stages

namespace JointProb

open Query (constraints)

/-! ## One entry -/

/-- The state that an entry means, negated or not: the one it states, or the
    true one if it states none; the false one if it is negated, and it may state
    this one. -/
inductive Variable.Meant (v : Variable) : Bool → Option String → Nat → Prop
  | stated {label : String} {state : Nat} (hresolve : v.resolve? label = some state) :
      Meant v false (some label) state
  | bare {defaults : DefaultStates} (hdefaults : v.defaults? = some defaults) :
      Meant v false none defaults.trueState
  | negated {defaults : DefaultStates} {stated : Option String}
      (hdefaults : v.defaults? = some defaults)
      (hresolve : ∀ label ∈ stated, v.resolve? label = some defaults.falseState) :
      Meant v true stated defaults.falseState

namespace VarSpec

variable {c : Catalog} {s t : VarSpec} {v : Variable} {x y : Constraint}

/-- The constraint that an entry denotes. -/
def Denotes (c : Catalog) (s : VarSpec) (x : Constraint) : Prop :=
  ∃ v, c.vars[x.var]? = some v ∧ v.name = s.name ∧ v.Meant s.negated s.state x.state

theorem explicitState_eq_ok_iff {stated : Option Nat} : s.explicitState v = .ok stated ↔
    (∀ label ∈ s.state, v.resolve? label = stated) ∧ (s.state = none ↔ stated = none) := by
  rw [explicitState]
  cases s.state with
  | none => cases stated <;> simp
  | some label => cases hresolve : v.resolve? label <;> cases stated <;> simp [hresolve]

theorem meant_iff {state : Nat} : v.Meant s.negated s.state state ↔ ∃ stated selector,
    s.explicitState v = .ok stated ∧ s.choose v stated = .ok (state, selector) := by
  simp only [explicitState_eq_ok_iff, choose]
  generalize s.negated = negated, s.state = label?
  constructor
  · intro h
    cases h with
    | stated hresolve => exact ⟨some state, .explicit, by simp [hresolve], rfl⟩
    | bare hdefaults => exact ⟨none, .defaultTrue, by simp, by simp [hdefaults]⟩
    | @negated defaults _ hdefaults hresolve =>
      cases label? with
      | none => exact ⟨none, .defaultFalse, by simp, by simp [hdefaults]⟩
      | some label =>
        exact ⟨some defaults.falseState, .defaultFalse, ⟨hresolve, by simp⟩, by simp [hdefaults]⟩
  · rintro ⟨stated, selector, ⟨hresolve, hnone⟩, hchoose⟩
    split at hchoose
    · obtain ⟨label, rfl⟩ := Option.ne_none_iff_exists'.1 fun h => by simpa using hnone.1 h
      cases hchoose
      exact .stated (hresolve label rfl)
    · cases hchoose
    · next hdefaults =>
      obtain rfl := hnone.2 rfl
      cases hchoose
      exact .bare hdefaults
    · next hdefaults =>
      obtain rfl := hnone.2 rfl
      cases hchoose
      exact .negated hdefaults (by simp)
    · next hdefaults =>
      split_ifs at hchoose with heq
      cases hchoose
      exact .negated hdefaults (heq ▸ hresolve)

/-- **An entry is bound to what it denotes.** -/
theorem exists_bind_iff (hc : c.InStep) :
    (∃ b, s.bind c = .ok b ∧ b.toConstraint = x) ↔ s.Denotes c x := by
  constructor
  · rintro ⟨b, hb, rfl⟩
    rw [bind] at hb
    split at hb
    · cases hb
    next v hlookup =>
    split at hb
    · cases hb
    next stated hstated =>
    obtain ⟨⟨state, selector⟩, hchoose, rfl⟩ := map_eq_ok.1 hb
    obtain ⟨hv, hname⟩ := hc.lookup_eq_ok_iff.1 hlookup
    exact ⟨v.toVariable, hv, hname, meant_iff.2 ⟨stated, selector, hstated, hchoose⟩⟩
  · rintro ⟨v, hv, hname, hmeant⟩
    obtain ⟨stated, selector, hstated, hchoose⟩ := meant_iff.1 hmeant
    refine ⟨⟨x, selector⟩, ?_, rfl⟩
    simp only [bind, hc.lookup_eq_ok_iff.2 ⟨hv, hname⟩, hstated, hchoose, Except.map]

/-- An entry denotes one constraint at most. -/
theorem Denotes.unique (hc : c.InStep) (hx : s.Denotes c x) (hy : s.Denotes c y) : x = y := by
  obtain ⟨b, hb, rfl⟩ := (exists_bind_iff hc).2 hx
  obtain ⟨b', hb', rfl⟩ := (exists_bind_iff hc).2 hy
  rw [Except.ok.inj (hb.symm.trans hb')]

end VarSpec

variable {c : Catalog} {ss ts : List VarSpec} {bs bound : List BoundSpec} {x : Constraint}

/-! ## One side -/

theorem constraints_concat (bound : List BoundSpec) (b : BoundSpec) :
    constraints (bound ++ [b]) = constraints bound ++ [b.toConstraint] :=
  List.map_append

theorem find?_bound (bound : List BoundSpec) (i : Nat) :
    (constraints bound).find? (·.var == i) =
      (bound.find? (·.var == i)).map BoundSpec.toConstraint :=
  List.find?_map ..

section

variable (hc : c.InStep)
include hc

/-- **The entries on a side are bound to what their constraints gather into.** -/
theorem exists_bindAfter_iff {ys : List Constraint}
    (hbound : ((constraints bound).map Constraint.var).Nodup) :
    (∃ bs, bindAfter c bound ss = .ok bs ∧ constraints bs = ys) ↔
      ∃ xs, List.Forall₂ (VarSpec.Denotes c) ss xs ∧
        Constraint.Gathers (constraints bound) xs ys := by
  induction ss generalizing bound with
  | nil =>
    constructor
    · rintro ⟨bs, hbs, rfl⟩
      cases hbs
      exact ⟨[], .nil, .done⟩
    · rintro ⟨xs, hxs, hgathers⟩
      cases hxs
      cases hgathers
      exact ⟨bound, rfl, rfl⟩
  | cons s ss ih =>
    constructor
    · rintro ⟨bs, hbs, rfl⟩
      rw [bindAfter] at hbs
      split at hbs
      · cases hbs
      next b hb =>
      have hdenotes : s.Denotes c b.toConstraint := (VarSpec.exists_bind_iff hc).1 ⟨b, hb, rfl⟩
      have hfind := find?_bound bound b.var
      split at hbs
      · next hnone =>
        rw [hnone, Option.map_none, Constraint.find?_eq_none_iff] at hfind
        have hnext := Constraint.nodup_concat hbound hfind
        rw [← constraints_concat] at hnext
        obtain ⟨xs, hxs, hgathers⟩ := (ih hnext).1 ⟨bs, hbs, rfl⟩
        rw [constraints_concat] at hgathers
        exact ⟨_ :: xs, .cons hdenotes hxs, .new hfind hgathers⟩
      · next y hy =>
        split_ifs at hbs with hstate
        rw [hy, Option.map_some, Constraint.find?_eq_some_iff hbound] at hfind
        have hsame : y.toConstraint = b.toConstraint := congrArg₂ Constraint.mk hfind.2 hstate
        obtain ⟨xs, hxs, hgathers⟩ := (ih hbound).1 ⟨bs, hbs, rfl⟩
        exact ⟨_ :: xs, .cons hdenotes hxs, .again (hsame ▸ hfind.1) hgathers⟩
    · rintro ⟨_, hall, hgathers⟩
      obtain ⟨x, xs, hdenotes, hxs, rfl⟩ := List.forall₂_cons_left_iff.1 hall
      obtain ⟨b, hb, rfl⟩ := (VarSpec.exists_bind_iff hc).2 hdenotes
      have hfind := find?_bound bound b.var
      simp only [bindAfter, hb]
      cases hgathers with
      | new hnew hrest =>
        rw [Constraint.find?_eq_none_iff.2 hnew, eq_comm, Option.map_eq_none_iff] at hfind
        have hnext := Constraint.nodup_concat hbound hnew
        rw [← constraints_concat] at hnext hrest
        rw [hfind]
        exact (ih hnext).2 ⟨xs, hxs, hrest⟩
      | again hmem hrest =>
        rw [(Constraint.find?_eq_some_iff hbound).2 ⟨hmem, rfl⟩, eq_comm,
          Option.map_eq_some_iff] at hfind
        obtain ⟨y, hy, hsame⟩ := hfind
        have hstate : y.state = b.state := congrArg Constraint.state hsame
        rw [hy]
        simp only [if_pos hstate]
        exact (ih hbound).2 ⟨xs, hxs, hrest⟩

theorem exists_bindSide_gathers_iff {ys : List Constraint} :
    (∃ bs, bindSide c ss = .ok bs ∧ constraints bs = ys) ↔
      ∃ xs, List.Forall₂ (VarSpec.Denotes c) ss xs ∧ Constraint.Gathers [] xs ys :=
  exists_bindAfter_iff hc List.nodup_nil

/-- **What a side is bound to** is what its entries denote. -/
theorem mem_constraints_iff (h : bindSide c ss = .ok bs) :
    x ∈ constraints bs ↔ ∃ s ∈ ss, s.Denotes c x := by
  obtain ⟨xs, hxs, hgathers⟩ := (exists_bindSide_gathers_iff hc).1 ⟨bs, h, rfl⟩
  rw [hgathers.mem_iff, mem_iff_of_forall₂ hxs fun _ _ _ => VarSpec.Denotes.unique hc]
  simp

theorem nodup_constraints (h : bindSide c ss = .ok bs) :
    ((constraints bs).map Constraint.var).Nodup := by
  obtain ⟨xs, -, hgathers⟩ := (exists_bindSide_gathers_iff hc).1 ⟨bs, h, rfl⟩
  exact hgathers.nodup List.nodup_nil

/-- **A side is bound** if each entry denotes a constraint and no two of them
    contradict each other. -/
theorem exists_bindSide_iff : (∃ bs, bindSide c ss = .ok bs) ↔
    (∀ s ∈ ss, ∃ x, s.Denotes c x) ∧ ∀ s ∈ ss, ∀ t ∈ ss, ∀ x y, s.Denotes c x → t.Denotes c y →
      x.var = y.var → x.state = y.state := by
  constructor
  · rintro ⟨bs, hbs⟩
    have hconsistent := Constraint.consistent_of_nodup (nodup_constraints hc hbs)
    obtain ⟨xs, hxs, -⟩ := (exists_bindSide_gathers_iff hc).1 ⟨bs, hbs, rfl⟩
    refine ⟨fun s hs => ?_, fun s hs t ht x y hx hy => hconsistent x ?_ y ?_⟩
    · obtain ⟨x, -, hx⟩ := exists_right_of_forall₂ hxs hs
      exact ⟨x, hx⟩
    · exact (mem_constraints_iff hc hbs).2 ⟨s, hs, hx⟩
    · exact (mem_constraints_iff hc hbs).2 ⟨t, ht, hy⟩
  · rintro ⟨hdenotes, hconsistent⟩
    obtain ⟨xs, hxs⟩ := exists_forall₂ hdenotes
    have hgathers : ∃ ys, Constraint.Gathers [] xs ys := by
      have hnil : (([] : List Constraint).map Constraint.var).Nodup := List.nodup_nil
      refine (Constraint.exists_gathers_iff hnil).2 fun x hx y hy => ?_
      obtain ⟨s, hs, hsx⟩ := exists_left_of_forall₂ hxs hx
      obtain ⟨t, ht, hty⟩ := exists_left_of_forall₂ hxs hy
      exact hconsistent s hs t ht x y hsx hty
    obtain ⟨ys, hys⟩ := hgathers
    obtain ⟨bs, hbs, -⟩ := (exists_bindSide_gathers_iff hc).2 ⟨xs, hxs, hys⟩
    exact ⟨bs, hbs⟩

end

/-! ## Two sides -/

/-- Two sides with the same entries but for their order, their number and how
    they are written: for each entry of the one there is one of the other that
    denotes the same, or nothing as well. -/
structure SidesAgree (c : Catalog) (ss ts : List VarSpec) : Prop where
  left : ∀ s ∈ ss, ∃ t ∈ ts, ∀ x, s.Denotes c x ↔ t.Denotes c x
  right : ∀ t ∈ ts, ∃ s ∈ ss, ∀ x, s.Denotes c x ↔ t.Denotes c x

namespace SidesAgree

theorem symm (h : SidesAgree c ss ts) : SidesAgree c ts ss where
  left t ht := by
    obtain ⟨s, hs, hsame⟩ := h.right t ht
    exact ⟨s, hs, fun x => (hsame x).symm⟩
  right s hs := by
    obtain ⟨t, ht, hsame⟩ := h.left s hs
    exact ⟨t, ht, fun x => (hsame x).symm⟩

theorem trans {us : List VarSpec} (h : SidesAgree c ss ts) (h' : SidesAgree c ts us) :
    SidesAgree c ss us where
  left s hs := by
    obtain ⟨t, ht, hst⟩ := h.left s hs
    obtain ⟨u, hu, htu⟩ := h'.left t ht
    exact ⟨u, hu, fun x => (hst x).trans (htu x)⟩
  right u hu := by
    obtain ⟨t, ht, htu⟩ := h'.right u hu
    obtain ⟨s, hs, hst⟩ := h.right t ht
    exact ⟨s, hs, fun x => (hst x).trans (htu x)⟩

/-- The same entries, in another order or some of them again. -/
theorem of_mem_iff (h : ∀ s, s ∈ ss ↔ s ∈ ts) : SidesAgree c ss ts where
  left s hs := ⟨s, (h s).1 hs, fun _ => Iff.rfl⟩
  right t ht := ⟨t, (h t).2 ht, fun _ => Iff.rfl⟩

/-- Other entries for the same constraints, one by one. -/
theorem of_forall₂
    (h : List.Forall₂ (fun s t => ∀ x, VarSpec.Denotes c s x ↔ t.Denotes c x) ss ts) :
    SidesAgree c ss ts where
  left _ hs := exists_right_of_forall₂ h hs
  right _ ht := exists_left_of_forall₂ h ht

/-- The same constraints are denoted. -/
theorem exists_denotes_iff (h : SidesAgree c ss ts) :
    (∃ s ∈ ss, s.Denotes c x) ↔ ∃ t ∈ ts, t.Denotes c x := by
  constructor
  · rintro ⟨s, hs, hx⟩
    obtain ⟨t, ht, hsame⟩ := h.left s hs
    exact ⟨t, ht, (hsame x).1 hx⟩
  · rintro ⟨t, ht, hx⟩
    obtain ⟨s, hs, hsame⟩ := h.right t ht
    exact ⟨s, hs, (hsame x).2 hx⟩

theorem exists_bindSide (hc : c.InStep) (h : SidesAgree c ss ts) (hbs : bindSide c ss = .ok bs) :
    ∃ bs', bindSide c ts = .ok bs' := by
  obtain ⟨hdenotes, hconsistent⟩ := (exists_bindSide_iff hc).1 ⟨bs, hbs⟩
  refine (exists_bindSide_iff hc).2 ⟨fun t ht => ?_, fun t ht t' ht' x y hx hy => ?_⟩
  · obtain ⟨s, hs, hsame⟩ := h.right t ht
    obtain ⟨x, hx⟩ := hdenotes s hs
    exact ⟨x, (hsame x).1 hx⟩
  · obtain ⟨s, hs, hsame⟩ := h.right t ht
    obtain ⟨s', hs', hsame'⟩ := h.right t' ht'
    exact hconsistent s hs s' hs' x y ((hsame x).2 hx) ((hsame' y).2 hy)

/-- **Such sides are bound to the same constraints**, or neither is bound. -/
theorem bindSide_agree (hc : c.InStep) (h : SidesAgree c ss ts) :
    Agree (fun bs bs' => ∀ x, x ∈ constraints bs ↔ x ∈ constraints bs') (bindSide c ss)
      (bindSide c ts) := by
  cases hs : bindSide c ss with
  | ok bs =>
    obtain ⟨bs', ht⟩ := h.exists_bindSide hc hs
    rw [ht]
    refine .ok fun x => ?_
    rw [mem_constraints_iff hc hs, mem_constraints_iff hc ht, h.exists_denotes_iff]
  | error e =>
    cases ht : bindSide c ts with
    | ok bs' =>
      obtain ⟨bs, hbs⟩ := h.symm.exists_bindSide hc ht
      cases hs.symm.trans hbs
    | error e' => exact .error

end SidesAgree

end JointProb
