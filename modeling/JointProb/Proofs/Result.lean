/-
  JointProb — steps that may fail.

  What a chain of steps without a fault says about each of them.

  * `bind_eq_ok`, `bind_eq_error`, `map_eq_ok`, `mapError_eq_ok` and
    `toOption_eq_some`: the steps of a chain;
  * `mapM_eq_ok`: one step for each element of a list;
  * `exists_left_of_forall₂`, `exists_right_of_forall₂`, `forall₂_imp_mem`,
    `forall₂_join` and `exists_forall₂_join`: what stands at the same place of
    two lists;
  * `find?_zipIdx_eq_none_iff`: a search by position that finds nothing;
    `lookup_eq_some_iff_mem` and `lookup_eq_none_iff_notMem`: a search by key,
    `lookup_perm` and `lookup_eq_of_forall₂`: in another order and with other
    keys;
  * `foldlM_invariant`: what each step keeps, all of them keep;
  * `Ends` says what is true of the result of a chain, and what of its fault;
  * `Agree` says of two chains that both have a result or neither has.
-/
import Mathlib.Data.List.Forall2
import Mathlib.Data.List.Nodup

namespace JointProb

variable {ε ε' α β σ τ : Type}

theorem bind_eq_ok {x : Except ε α} {f : α → Except ε β} {b : β} :
    x >>= f = .ok b ↔ ∃ a, x = .ok a ∧ f a = .ok b := by
  cases x <;> simp [bind, Except.bind]

theorem bind_eq_error {x : Except ε α} {f : α → Except ε β} {e : ε} :
    x >>= f = .error e ↔ x = .error e ∨ ∃ a, x = .ok a ∧ f a = .error e := by
  cases x <;> simp [bind, Except.bind]

theorem map_eq_ok {x : Except ε α} {f : α → β} {b : β} :
    x.map f = .ok b ↔ ∃ a, x = .ok a ∧ f a = b := by
  cases x <;> simp [Except.map]

theorem mapError_eq_ok {x : Except ε α} {f : ε → ε'} {a : α} :
    x.mapError f = .ok a ↔ x = .ok a := by
  cases x <;> simp [Except.mapError]

theorem toOption_eq_some {x : Except ε α} {a : α} : x.toOption = some a ↔ x = .ok a := by
  cases x <;> simp [Except.toOption]

theorem exists_left_of_forall₂ {R : α → β → Prop} {xs : List α} {ys : List β}
    (h : List.Forall₂ R xs ys) {y : β} (hy : y ∈ ys) : ∃ x ∈ xs, R x y := by
  obtain ⟨i, hi, rfl⟩ := List.getElem_of_mem hy
  obtain ⟨hlen, hget⟩ := List.forall₂_iff_get.1 h
  exact ⟨xs[i], List.getElem_mem _, hget i (hlen ▸ hi) hi⟩

theorem exists_right_of_forall₂ {R : α → β → Prop} {xs : List α} {ys : List β}
    (h : List.Forall₂ R xs ys) {x : α} (hx : x ∈ xs) : ∃ y ∈ ys, R x y :=
  exists_left_of_forall₂ h.flip hx

/-- If only one is related to each, what stands at such places is what is
    related. -/
theorem mem_iff_of_forall₂ {R : α → β → Prop} {xs : List α} {ys : List β}
    (h : List.Forall₂ R xs ys) (hR : ∀ a b b', R a b → R a b' → b = b') {y : β} :
    y ∈ ys ↔ ∃ x ∈ xs, R x y := by
  refine ⟨exists_left_of_forall₂ h, ?_⟩
  rintro ⟨x, hx, hxy⟩
  obtain ⟨y', hy', hxy'⟩ := exists_right_of_forall₂ h hx
  exact hR x y y' hxy hxy' ▸ hy'

theorem forall₂_imp_mem {R S : α → β → Prop} {xs : List α} {ys : List β}
    (h : List.Forall₂ R xs ys) (himp : ∀ x ∈ xs, ∀ y ∈ ys, R x y → S x y) :
    List.Forall₂ S xs ys := by
  obtain ⟨hlen, hzip⟩ := List.forall₂_iff_zip.1 h
  refine List.forall₂_iff_zip.2 ⟨hlen, fun hxy => ?_⟩
  obtain ⟨hx, hy⟩ := List.of_mem_zip hxy
  exact himp _ hx _ hy (hzip hxy)

/-- What belongs to the elements of a list, one by one. -/
theorem exists_forall₂ {R : α → β → Prop} {xs : List α} (h : ∀ x ∈ xs, ∃ y, R x y) :
    ∃ ys, List.Forall₂ R xs ys := by
  induction xs with
  | nil => exact ⟨[], .nil⟩
  | cons x xs ih =>
    obtain ⟨⟨y, hy⟩, h⟩ := List.forall_mem_cons.1 h
    obtain ⟨ys, hys⟩ := ih h
    exact ⟨y :: ys, .cons hy hys⟩

/-- Two lists that belong to a third one belong to each other. -/
theorem forall₂_join {R : α → β → Prop} {S : α → σ → Prop} {T : β → σ → Prop} {xs : List α}
    {ys : List β} {zs : List σ} (hy : List.Forall₂ R xs ys) (hz : List.Forall₂ S xs zs)
    (hjoin : ∀ x y z, R x y → S x z → T y z) : List.Forall₂ T ys zs := by
  induction hy generalizing zs with
  | nil => cases hz; exact .nil
  | cons hxy _ ih =>
    cases hz with
    | cons hxz hz => exact .cons (hjoin _ _ _ hxy hxz) (ih hz)

/-- What belongs to the one list and to the other, element by element. -/
theorem exists_forall₂_join {R : α → β → Prop} {S : α → σ → Prop} {T : σ → τ → Prop}
    {U : β → τ → Prop} {xs : List α} {ys : List β} {zs : List σ} (hy : List.Forall₂ R xs ys)
    (hz : List.Forall₂ S xs zs) (hjoin : ∀ x y z, R x y → S x z → ∃ w, T z w ∧ U y w) :
    ∃ ws, List.Forall₂ T zs ws ∧ List.Forall₂ U ys ws := by
  induction hy generalizing zs with
  | nil => cases hz; exact ⟨[], .nil, .nil⟩
  | cons hxy _ ih =>
    cases hz with
    | cons hxz hz =>
      obtain ⟨w, hzw, hyw⟩ := hjoin _ _ _ hxy hxz
      obtain ⟨ws, hzs, hys⟩ := ih hz
      exact ⟨w :: ws, .cons hzw hzs, .cons hyw hys⟩

/-- Each element gives the one at its place. -/
theorem mapM_eq_ok {f : α → Except ε β} {xs : List α} {ys : List β} :
    xs.mapM f = .ok ys ↔ List.Forall₂ (fun x y => f x = .ok y) xs ys := by
  induction xs generalizing ys with
  | nil => simp [pure, Except.pure, eq_comm]
  | cons x xs ih =>
    simp only [List.mapM_cons, bind_eq_ok, ih, List.forall₂_cons_left_iff]
    constructor
    · rintro ⟨y, hy, ys', hys, h⟩
      cases h
      exact ⟨y, ys', hy, hys, rfl⟩
    · rintro ⟨y, ys', hy, hys, rfl⟩
      exact ⟨y, hy, ys', hys, rfl⟩

/-- All that a step gives, it gives for an element. -/
theorem exists_of_mem_of_mapM {f : α → Except ε β} {xs : List α} {ys : List β}
    (h : xs.mapM f = .ok ys) {y : β} (hy : y ∈ ys) : ∃ x ∈ xs, f x = .ok y :=
  exists_left_of_forall₂ (mapM_eq_ok.1 h) hy

/-- What is found under a key, if keys are different, is what stands there. -/
theorem lookup_eq_some_iff_mem [BEq α] [LawfulBEq α] {xs : List (α × β)}
    (hnodup : (xs.map Prod.fst).Nodup) {a : α} {b : β} : xs.lookup a = some b ↔ (a, b) ∈ xs := by
  rw [List.lookup_eq_some_iff]
  constructor
  · rintro ⟨front, back, rfl, -⟩
    simp
  · intro h
    obtain ⟨front, back, rfl⟩ := List.append_of_mem h
    refine ⟨front, back, rfl, fun x hx => ?_⟩
    rw [bne_iff_ne]
    rintro rfl
    rw [List.map_append] at hnodup
    exact List.disjoint_of_nodup_append hnodup (List.mem_map_of_mem hx) (by simp)

theorem lookup_eq_none_iff_notMem [BEq α] [LawfulBEq α] {xs : List (α × β)} {a : α} :
    xs.lookup a = none ↔ a ∉ xs.map Prod.fst := by
  rw [List.lookup_eq_none_iff, List.mem_map, not_exists]
  refine forall_congr' fun x => ?_
  rw [bne_iff_ne, not_and, eq_comm]

/-- In another order, different keys lead to the same. -/
theorem lookup_perm [BEq α] [LawfulBEq α] {xs ys : List (α × β)} (h : xs.Perm ys)
    (hnodup : (xs.map Prod.fst).Nodup) (a : α) : xs.lookup a = ys.lookup a := by
  induction h with
  | nil => rfl
  | cons x _ ih =>
    rw [List.lookup_cons, List.lookup_cons, ih (List.nodup_cons.1 hnodup).2]
  | swap x y xs =>
    have hne : y.1 ≠ x.1 := fun heq => (List.nodup_cons.1 hnodup).1 (by simp [heq])
    rw [List.lookup_cons, List.lookup_cons, List.lookup_cons, List.lookup_cons]
    cases hx : a == x.1 with
    | false => rfl
    | true =>
      rw [eq_of_beq hx, beq_false_of_ne hne.symm]
  | trans h _ ih ih' => exact (ih hnodup).trans (ih' ((h.map Prod.fst).nodup_iff.1 hnodup))

/-- With keys of their own in the one list, elements have keys of their own in
    the other one. -/
theorem nodup_of_forall₂ {T : α → σ → Prop} (hT : ∀ {a b s}, T a s → T b s → a = b)
    {xs : List (α × β)} {ys : List (σ × β)}
    (h : List.Forall₂ (fun x y => T x.1 y.1 ∧ y.2 = x.2) xs ys) (hnodup : (xs.map Prod.fst).Nodup) :
    (ys.map Prod.fst).Nodup := by
  induction h with
  | nil => exact .nil
  | @cons x y xs ys hxy hxs ih =>
    obtain ⟨hx, hnodup⟩ := List.nodup_cons.1 hnodup
    refine List.nodup_cons.2 ⟨fun hmem => hx ?_, ih hnodup⟩
    obtain ⟨y', hy', heq⟩ := List.mem_map.1 hmem
    obtain ⟨x', hx', hxy'⟩ := exists_left_of_forall₂ hxs hy'
    rw [hT hxy.1 (heq ▸ hxy'.1)]
    exact List.mem_map_of_mem hx'

/-- Under other keys the same is found. -/
theorem lookup_eq_of_forall₂ [BEq α] [LawfulBEq α] [BEq σ] [LawfulBEq σ] {T : α → σ → Prop}
    (hT : ∀ {a b s t}, T a s → T b t → (a = b ↔ s = t)) {xs : List (α × β)} {ys : List (σ × β)}
    (h : List.Forall₂ (fun x y => T x.1 y.1 ∧ y.2 = x.2) xs ys) {a : α} {s : σ} (has : T a s) :
    ys.lookup s = xs.lookup a := by
  induction h with
  | nil => rfl
  | @cons x y xs ys hxy _ ih =>
    rw [List.lookup_cons, List.lookup_cons, ih, hxy.2]
    have hkeys : (a == x.1) = (s == y.1) := by
      rw [Bool.eq_iff_iff, beq_iff_eq, beq_iff_eq]
      exact hT has hxy.1
    rw [hkeys]

/-- A property that no position of a list has. -/
theorem find?_zipIdx_eq_none_iff (xs : List α) (p : Nat → Bool) :
    (xs.zipIdx.find? fun (_, i) => p i) = none ↔ ∀ i < xs.length, p i = false := by
  rw [List.find?_eq_none]
  constructor
  · intro h i hi
    have hmem : (xs[i], i) ∈ xs.zipIdx := by
      rw [List.mem_zipIdx_iff_getElem?, List.getElem?_eq_getElem hi]
    simpa using h _ hmem
  · rintro h ⟨x, i⟩ hx
    have hi := (List.getElem?_eq_some_iff.1 (List.mem_zipIdx_iff_getElem?.1 hx)).1
    simpa using h i hi

/-- What each step keeps, all of them keep. -/
theorem foldlM_invariant {f : σ → α → Except ε σ} {p : σ → Prop}
    (step : ∀ s x s', p s → f s x = .ok s' → p s') {xs : List α} {s s' : σ} (hs : p s)
    (h : xs.foldlM f s = .ok s') : p s' := by
  induction xs generalizing s with
  | nil => cases h; exact hs
  | cons x xs ih =>
    rw [List.foldlM_cons, bind_eq_ok] at h
    obtain ⟨t, ht, h⟩ := h
    exact ih (step s x t hs ht) h

/-! ## Results and faults -/

/-- A result with a property, or a fault with another. -/
def Ends (E : ε → Prop) (P : α → Prop) : Except ε α → Prop
  | .ok a => P a
  | .error e => E e

section

variable {E : ε → Prop} {P : α → Prop} {Q : β → Prop} {x : Except ε α}

@[simp] theorem ends_ok {a : α} : Ends E P (.ok a) ↔ P a := Iff.rfl

@[simp] theorem ends_error {e : ε} : Ends E P (.error e) ↔ E e := Iff.rfl

theorem Ends.bind {f : α → Except ε β} (hx : Ends E P x) (hf : ∀ a, P a → Ends E Q (f a)) :
    Ends E Q (x >>= f) := by
  cases x with
  | error e => exact hx
  | ok a => exact hf a hx

theorem Ends.mono {P' : α → Prop} (hx : Ends E P x) (h : ∀ a, P a → P' a) : Ends E P' x := by
  cases x with
  | error e => exact hx
  | ok a => exact h a hx

theorem Ends.mono_error {E' : ε → Prop} (hx : Ends E P x) (h : ∀ e, E e → E' e) :
    Ends E' P x := by
  cases x with
  | error e => exact h e hx
  | ok a => exact hx

theorem Ends.mapError {E' : ε' → Prop} {f : ε → ε'} (hx : Ends E P x) (hf : ∀ e, E e → E' (f e)) :
    Ends E' P (x.mapError f) := by
  cases x with
  | error e => exact hf e hx
  | ok a => exact hx

theorem Ends.map {f : α → β} (hx : Ends E P x) (hf : ∀ a, P a → Q (f a)) :
    Ends E Q (x.map f) := by
  cases x with
  | error e => exact hx
  | ok a => exact hf a hx

end

/-! ## Two results -/

/-- Two results that are related, or two faults. -/
inductive Agree (R : α → β → Prop) : Except ε α → Except ε' β → Prop
  | ok {a : α} {b : β} (h : R a b) : Agree R (.ok a) (.ok b)
  | error {e : ε} {e' : ε'} : Agree R (.error e) (.error e')

section

variable {R : α → β → Prop} {S : σ → τ → Prop} {x : Except ε α} {y : Except ε' β}

theorem Agree.bind {f : α → Except ε σ} {g : β → Except ε' τ} (h : Agree R x y)
    (hf : ∀ a b, R a b → Agree S (f a) (g b)) : Agree S (x >>= f) (y >>= g) := by
  cases h with
  | ok h => exact hf _ _ h
  | error => exact .error

theorem Agree.map {f : α → σ} {g : β → τ} (h : Agree R x y) (hf : ∀ a b, R a b → S (f a) (g b)) :
    Agree S (x.map f) (y.map g) := by
  cases h with
  | ok h => exact .ok (hf _ _ h)
  | error => exact .error

theorem agree_refl {x : Except ε α} : Agree Eq x x := by
  cases x with
  | ok a => exact .ok rfl
  | error e => exact .error

theorem Agree.toOption_eq {y : Except ε' α} (h : Agree Eq x y) : x.toOption = y.toOption := by
  cases h with
  | ok h => exact congrArg some h
  | error => rfl

end

end JointProb
