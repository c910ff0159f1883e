/-
  JointProb — the keys of entries whose parents are listed in another order.

      (1 | 0, Clear): 0.2           (1 | Clear, 0): 0.2
      01: 0.7                       10: 0.7

  * `keyParts?` are the labels in a key, or its bits;
  * `Aligned` says that each parent keeps its label, `KeyMoved` that a key has
    the labels of another one in this way;
  * `BlockEntry.Moved.labels` and `BlockEntry.Moved.bits`: so the labels or the
    bits that are read are aligned;
  * `Aligned.exists_assignment`: and stand for the same states of the parents.
-/
import JointProb.Proofs.Assignment
import JointProb.Proofs.Catalog.Names
import JointProb.Proofs.Spec.BlockRenumbering

namespace JointProb

open Text

variable {α β γ : Type}

/-! ## Keys -/

/-- The labels of the parents, and that of the variable in front of a bar. -/
structure KeyParts where
  child : Option (List Char)
  parents : List (List Char)
deriving DecidableEq, Repr

/-- The parts of a key: a bit for each parent, or labels in parentheses. -/
def keyParts? (key : List Char) : Option KeyParts :=
  if Line.isPattern key then some ⟨none, key.map fun bit => [bit]⟩
  else
    ((dropStart? ['('] key).bind (dropEnd? [')'])).bind fun inner =>
      (cut? ['|'] inner).map fun sides => ⟨some (trim sides.1), fields sides.2⟩

/-- Each of some parents has the same label in either order. -/
structure Aligned (xs xs' : List β) (ls ls' : List (List Char)) : Prop where
  length_eq : ls.length = xs.length
  length_eq' : ls'.length = xs'.length
  perm : (xs'.zip ls').Perm (xs.zip ls)

instance [DecidableEq β] (xs xs' : List β) (ls ls' : List (List Char)) :
    Decidable (Aligned xs xs' ls ls') :=
  decidable_of_iff (ls.length = xs.length ∧ ls'.length = xs'.length ∧
      (xs'.zip ls').Perm (xs.zip ls))
    ⟨fun h => ⟨h.1, h.2.1, h.2.2⟩, fun h => ⟨h.length_eq, h.length_eq', h.perm⟩⟩

/-- The same key with the labels of the parents in the order of these. -/
def KeyMoved (xs xs' : List β) (key key' : List Char) : Prop :=
  xs ≠ [] ∧ ∃ k ∈ keyParts? key, ∃ k' ∈ keyParts? key', k'.child = k.child ∧
    Aligned xs xs' k.parents k'.parents

instance [DecidableEq β] (xs xs' : List β) (key key' : List Char) :
    Decidable (KeyMoved xs xs' key key') :=
  inferInstanceAs (Decidable (_ ∧ _))

section

variable {xs xs' : List β} {ls ls' : List (List Char)} {key key' : List Char} {k : KeyParts}

theorem Aligned.refl (h : ls.length = xs.length) : Aligned xs xs ls ls := ⟨h, h, .refl _⟩

theorem Aligned.map (h : Aligned xs xs' ls ls') (f : β → γ) :
    Aligned (xs.map f) (xs'.map f) ls ls' where
  length_eq := by rw [h.length_eq, List.length_map]
  length_eq' := by rw [h.length_eq', List.length_map]
  perm := by
    rw [List.zip_map_left, List.zip_map_left]
    exact h.perm.map _

theorem KeyMoved.map (h : KeyMoved xs xs' key key') (f : β → γ) :
    KeyMoved (xs.map f) (xs'.map f) key key' := by
  obtain ⟨hne, k, hk, k', hk', hchild, haligned⟩ := h
  exact ⟨by simpa using hne, k, hk, k', hk', hchild, haligned.map f⟩

/-- Keys of bits have no label in front. -/
theorem keyParts?_of_isPattern (h : Line.isPattern key) :
    keyParts? key = some ⟨none, key.map fun bit => [bit]⟩ := if_pos h

theorem isPattern_of_keyParts? (hkey : keyParts? key = some k) (hchild : k.child = none) :
    Line.isPattern key := by
  by_contra hpattern
  rw [keyParts?, if_neg hpattern, Option.bind_eq_some_iff] at hkey
  obtain ⟨inner, -, hinner⟩ := hkey
  obtain ⟨sides, -, rfl⟩ := Option.map_eq_some_iff.1 hinner
  cases hchild

/-- A key starts with a bit or with a parenthesis. -/
theorem head_of_keyParts? {c : Char} {cs : List Char} (h : keyParts? (c :: cs) = some k) :
    c = '0' ∨ c = '1' ∨ c = '(' := by
  rw [keyParts?] at h
  split_ifs at h with hpattern
  · rw [Line.isPattern, List.all_cons, Bool.and_eq_true, Bool.or_eq_true, beq_iff_eq,
      beq_iff_eq] at hpattern
    exact hpattern.1.imp_right .inl
  · obtain ⟨inner, hinner, -⟩ := Option.bind_eq_some_iff.1 h
    obtain ⟨rest, hrest, -⟩ := Option.bind_eq_some_iff.1 hinner
    rw [dropStart?] at hrest
    split_ifs at hrest with hstart
    exact .inr (.inr (by simpa using hstart : '(' = c).symm)

end

/-! ## Entries -/

namespace BlockEntry

variable {e e' : BlockEntry} {ps ps' : List ℕ} {k : KeyParts}

/-- The same entry, its labels perhaps in the order of other parents. -/
structure Moved (ps ps' : List ℕ) (e e' : BlockEntry) : Prop where
  value_eq : e'.value = e.value
  key : (ps' = ps ∧ e'.key = e.key) ∨ KeyMoved ps ps' e.key e'.key

theorem isFull_eq_of_keyParts? (h : keyParts? e.key = some k) :
    e.isFull = k.child.isSome := by
  rw [keyParts?] at h
  split_ifs at h with hpattern
  · cases h
    cases hkey : e.key with
    | nil => simp [isFull, hkey]
    | cons c cs =>
      rw [hkey] at hpattern
      rcases head_of_keyParts? (keyParts?_of_isPattern hpattern) with rfl | rfl | rfl
      · simp [isFull, hkey]
      · simp [isFull, hkey]
      · simp [Line.isPattern] at hpattern
  · obtain ⟨inner, hinner, h⟩ := Option.bind_eq_some_iff.1 h
    obtain ⟨sides, -, rfl⟩ := Option.map_eq_some_iff.1 h
    obtain ⟨rest, hrest, -⟩ := Option.bind_eq_some_iff.1 hinner
    rw [dropStart?] at hrest
    split_ifs at hrest with hstart
    obtain ⟨tail, htail⟩ := List.isPrefixOf_iff_prefix.1 hstart
    simp [isFull, ← htail]

/-- What the parts of a key are read as. -/
theorem labels_of_keyParts? (h : keyParts? e.key = some k) {child : List Char}
    (hchild : k.child = some child) :
    (e.labels : Except (SpecError α) (List Char × List (List Char))) = .ok (child, k.parents) := by
  have hfull := isFull_eq_of_keyParts? h
  rw [hchild, Option.isSome_some] at hfull
  rw [keyParts?] at h
  split_ifs at h with hpattern
  · cases h
    cases hchild
  · obtain ⟨inner, hinner, h⟩ := Option.bind_eq_some_iff.1 h
    obtain ⟨sides, hcut, rfl⟩ := Option.map_eq_some_iff.1 h
    obtain rfl := Option.some.inj hchild
    simp only [labels, hfull, if_true, hinner, hcut]

/-- Bits are no labels. -/
theorem labels_of_isPattern (h : Line.isPattern e.key) :
    (e.labels : Except (SpecError α) (List Char × List (List Char))) = .ok (trim e.key, []) := by
  have hfull := isFull_eq_of_keyParts? (keyParts?_of_isPattern h)
  have hbar : '|' ∉ e.key := fun hmem => by simpa using List.all_eq_true.1 h _ hmem
  simp only [labels, hfull, Option.isSome_none, Bool.false_eq_true, if_false,
    cut?_eq_none (contains_eq_false hbar)]

theorem lt_of_stateOf {v : Variable} {label : List Char} {s : ℕ}
    (h : (e.stateOf v label : Except (SpecError α) ℕ) = .ok s) : s < v.cardinality := by
  rw [stateOf] at h
  split at h
  · next hresolve =>
    cases h
    exact v.lt_of_resolve? hresolve
  · cases h

namespace Moved

theorem isFull_eq (h : e.Moved ps ps' e') : e'.isFull = e.isFull := by
  rcases h.key with ⟨-, hkey⟩ | ⟨-, k, hk, k', hk', hchild, -⟩
  · rw [isFull, isFull, hkey]
  · rw [isFull_eq_of_keyParts? hk, isFull_eq_of_keyParts? hk', hchild]

/-- The labels of one entry are those of the other one. -/
theorem labels (h : e.Moved ps ps' e') {child : List Char} {ls : List (List Char)}
    (hlabels : (e.labels : Except (SpecError α) _) = .ok (child, ls))
    (hlen : ls.length = ps.length) :
    ∃ ls', (e'.labels : Except (SpecError α) _) = .ok (child, ls') ∧ Aligned ps ps' ls ls' := by
  rcases h.key with ⟨rfl, hkey⟩ | ⟨hne, k, hk, k', hk', hchild, haligned⟩
  · have hsame : e.Same e' := ⟨hkey, h.value_eq⟩
    exact ⟨ls, hsame.labels_eq_ok hlabels, .refl hlen⟩
  · cases hk₀ : k.child with
    | none =>
      rw [labels_of_isPattern (isPattern_of_keyParts? hk hk₀)] at hlabels
      cases hlabels
      exact absurd (List.length_eq_zero_iff.1 hlen.symm) hne
    | some label =>
      rw [labels_of_keyParts? hk hk₀] at hlabels
      cases hlabels
      exact ⟨k'.parents, labels_of_keyParts? hk' (hchild.trans hk₀), haligned⟩

/-- So are its bits. -/
theorem bits (h : e.Moved ps ps' e') (hpattern : Line.isPattern e.key)
    (hlen : e.key.length = ps.length) : Line.isPattern e'.key ∧
      Aligned ps ps' (e.key.map fun bit => [bit]) (e'.key.map fun bit => [bit]) := by
  rcases h.key with ⟨rfl, hkey⟩ | ⟨-, k, hk, k', hk', hchild, haligned⟩
  · rw [hkey]
    exact ⟨hpattern, .refl (by simpa using hlen)⟩
  · obtain rfl := Option.some.inj ((keyParts?_of_isPattern hpattern).symm.trans hk)
    have hpattern' := isPattern_of_keyParts? hk' hchild
    obtain rfl := Option.some.inj ((keyParts?_of_isPattern hpattern').symm.trans hk')
    exact ⟨hpattern', haligned⟩

theorem probability_eq_ok [Scalar α] (h : e.Moved ps ps' e') {p : α}
    (hp : Line.probability e.line e.value = .ok p) : Line.probability e'.line e'.value = .ok p := by
  rw [h.value_eq]
  exact Line.probability_of_line hp e'.line

end Moved

end BlockEntry

/-! ## States -/

/-- **Labels of parents are labels of an assignment**, which in the other order
    are labels of the same assignment. -/
theorem Aligned.exists_assignment {S : ℕ → List Char → ℕ → Prop} {ps ps' ds : List ℕ}
    {ls ls' : List (List Char)} (h : Aligned ps ps' ls ls') (hnodup : ps.Nodup)
    (hds : List.Forall₂ (fun x d => S x.1 x.2 d) (ps.zip ls) ds) :
    ∃ a : Assignment, ds = ps.map a ∧ (∀ p ∈ ps, ∃ l, S p l (a p)) ∧
      List.Forall₂ (fun x d => S x.1 x.2 d) (ps'.zip ls') (ps'.map a) := by
  have hzip {xs : List ℕ} {ms : List (List Char)} (hlen : ms.length = xs.length)
      (a : Assignment) : List.Forall₂ (fun x d => S x.1 x.2 d) (xs.zip ms) (xs.map a) ↔
        ∀ x ∈ xs.zip ms, S x.1 x.2 (a x.1) := by
    conv_lhs => rw [← List.map_fst_zip hlen.ge, List.map_map]
    rw [List.map_fst_zip hlen.ge, List.forall₂_map_right_iff, List.forall₂_same]
    rfl
  have hlen : ds.length = ps.length := by
    rw [← hds.length_eq, List.length_zip, h.length_eq, min_self]
  obtain ⟨a, rfl⟩ := Assignment.exists_map_eq hnodup hlen
  rw [hzip h.length_eq] at hds
  refine ⟨a, rfl, fun p hp => ?_, (hzip h.length_eq' a).2 fun x hx => ?_⟩
  · rw [← List.map_fst_zip h.length_eq.ge] at hp
    obtain ⟨x, hx, rfl⟩ := List.mem_map.1 hp
    exact ⟨x.2, hds x hx⟩
  · exact hds x (h.perm.mem_iff.1 hx)

end JointProb
