/-
  JointProb — the same block over variables at other positions.

  The lines of a block show in its faults, and only there.

  * `Block.Renumbered` says of two blocks that they have the same entries, in
    whatever lines, for the same variables at other positions;
  * `Block.Renumbered.placed_eq_ok`: these go to the same cells;
  * `Block.Renumbered.node_eq_ok`: so if one block describes a node, the other
    one describes this node at its new position.
-/
import JointProb.Proofs.Network.Renumbering
import JointProb.Proofs.Spec.Block

namespace JointProb

open Text

variable {α : Type} {σ : Equiv.Perm ℕ}

/-! ## Entries -/

namespace BlockEntry

/-- The same key and the same value, in whatever lines. -/
structure Same (e e' : BlockEntry) : Prop where
  key_eq : e'.key = e.key
  value_eq : e'.value = e.value

variable {e e' : BlockEntry}

theorem Same.isFull_eq (h : e.Same e') : e'.isFull = e.isFull := by
  rw [isFull, isFull, h.key_eq]

theorem Same.labels_eq_ok (h : e.Same e') {labels : List Char × List (List Char)}
    (hlabels : (e.labels : Except (SpecError α) _) = .ok labels) :
    (e'.labels : Except (SpecError α) _) = .ok labels := by
  simp only [BlockEntry.labels, h.isFull_eq, h.key_eq] at hlabels ⊢
  split at hlabels
  · cases hlabels
  · next hinner =>
    rw [hinner]
    exact hlabels

theorem Same.probability_eq_ok [Scalar α] (h : e.Same e') {p : α}
    (hp : Line.probability e.line e.value = .ok p) :
    Line.probability e'.line e'.value = .ok p := by
  rw [h.value_eq]
  exact Line.probability_of_line hp e'.line

theorem stateOf_of_entry {v : Variable} {label : List Char} {state : ℕ}
    (h : (e.stateOf v label : Except (SpecError α) ℕ) = .ok state) (e' : BlockEntry) :
    (e'.stateOf v label : Except (SpecError α) ℕ) = .ok state := by
  rw [stateOf] at h ⊢
  split at h
  · exact h
  · cases h

end BlockEntry

/-! ## Blocks -/

namespace Block

/-- The same entries, in whatever lines, for the same variables at other
    positions. -/
structure Renumbered (σ : Equiv.Perm ℕ) (b b' : Block) : Prop where
  child_eq : b'.child = σ b.child
  parents_eq : b'.parents = b.parents.map σ
  entries : List.Forall₂ BlockEntry.Same b.entries b'.entries

theorem parentStates_renumber {c c' : Catalog} (hc : Renumbering σ c.vars c'.vars)
    {e : BlockEntry} {ps : List ℕ} {labels : List (List Char)} {states : List ℕ}
    (h : (parentStates c e ps labels : Except (SpecError α) (List ℕ)) = .ok states)
    (e' : BlockEntry) :
    (parentStates c' e' (ps.map σ) labels : Except (SpecError α) (List ℕ)) = .ok states := by
  induction ps generalizing labels states with
  | nil => cases labels <;> exact h
  | cons p ps ih =>
    cases labels with
    | nil => exact h
    | cons label labels =>
      rw [parentStates] at h
      split at h
      · cases h
      rename_i state hstate
      obtain ⟨rest, hrest, rfl⟩ := map_eq_ok.1 h
      rw [List.map_cons, parentStates, Catalog.variableAt_renumber hc,
        BlockEntry.stateOf_of_entry hstate e', ih hrest]
      rfl

namespace Renumbered

variable {b b' : Block} {c c' : Catalog}

theorem variableIn_eq (h : b.Renumbered σ b') (hc : Renumbering σ c.vars c'.vars) :
    b'.variableIn c' = b.variableIn c := by
  rw [variableIn, variableIn, h.child_eq, Catalog.variableAt_renumber hc]

theorem radices_eq (h : b.Renumbered σ b') (hc : Renumbering σ c.vars c'.vars) :
    b'.radices c' = b.radices c := by
  simp only [radices, h.parents_eq, List.map_map, Function.comp_def,
    Catalog.cardinalityAt_renumber hc]

theorem rowCount_eq (h : b.Renumbered σ b') (hc : Renumbering σ c.vars c'.vars) :
    b'.rowCount c' = b.rowCount c := by
  rw [rowCount, rowCount, h.radices_eq hc]

theorem isShorthand_eq_ok (h : b.Renumbered σ b') (hc : Renumbering σ c.vars c'.vars)
    {shorthand : Bool} (hok : (b.isShorthand c : Except (SpecError α) Bool) = .ok shorthand) :
    (b'.isShorthand c' : Except (SpecError α) Bool) = .ok shorthand := by
  have hlength := h.entries.length_eq
  have hnil : b'.parents = [] ↔ b.parents = [] := by rw [h.parents_eq, List.map_eq_nil_iff]
  by_cases hroot : b.parents = []
  · by_cases hone : b.entries.length = 1
    · obtain ⟨e, he⟩ := List.length_eq_one_iff.1 hone
      obtain ⟨e', he'⟩ := List.length_eq_one_iff.1 (hlength ▸ hone)
      have hentries := h.entries
      rw [he, he', List.forall₂_cons] at hentries
      rw [isShorthand_single hroot he] at hok
      rw [isShorthand_single (hnil.2 hroot) he', hentries.1.key_eq, h.variableIn_eq hc]
      exact hok
    · rw [isShorthand_root hroot hone] at hok
      rw [isShorthand_root (hnil.2 hroot) (hlength ▸ hone)]
      exact hok
  · obtain ⟨hall, hempty⟩ := (isShorthand_eq_ok_iff hroot).1 hok
    refine (isShorthand_eq_ok_iff (mt hnil.1 hroot)).2 ⟨?_, ?_⟩
    · intro e' he'
      obtain ⟨e, he, hsame⟩ := exists_left_of_forall₂ h.entries he'
      rw [hsame.isFull_eq, hall e he]
    · intro hnone
      rw [hnone] at hlength
      exact hempty (List.length_eq_zero_iff.1 hlength)

theorem defaultsIn_eq_ok {b : Block} {c : Catalog} {v : Variable} {states : DefaultStates}
    (h : (b.defaultsIn c v : Except (SpecError α) DefaultStates) = .ok states) (b' : Block)
    (c' : Catalog) : (b'.defaultsIn c' v : Except (SpecError α) DefaultStates) = .ok states :=
  defaultsIn_eq_ok_iff.2 (defaultsIn_eq_ok_iff.1 h)

theorem fullPlace_eq_ok (h : b.Renumbered σ b') (hc : Renumbering σ c.vars c'.vars)
    {e e' : BlockEntry} (he : e.Same e') {i : ℕ}
    (hok : (b.fullPlace c e : Except (SpecError α) ℕ) = .ok i) :
    (b'.fullPlace c' e' : Except (SpecError α) ℕ) = .ok i := by
  simp only [fullPlace, bind_eq_ok] at hok ⊢
  obtain ⟨labels, hlabels, hok⟩ := hok
  refine ⟨labels, he.labels_eq_ok hlabels, ?_⟩
  rw [h.parents_eq, List.length_map, h.variableIn_eq hc, h.radices_eq hc]
  split_ifs at hok ⊢
  simp only [bind_eq_ok] at hok ⊢
  obtain ⟨state, hstate, states, hstates, hok⟩ := hok
  exact ⟨state, BlockEntry.stateOf_of_entry hstate e', states,
    parentStates_renumber hc hstates e', hok⟩

theorem bitsRow_eq_ok (h : b.Renumbered σ b') (hc : Renumbering σ c.vars c'.vars)
    {parents : List DefaultStates} {e e' : BlockEntry} (he : e.Same e') {i : ℕ}
    (hok : (b.bitsRow c parents e : Except (SpecError α) ℕ) = .ok i) :
    (b'.bitsRow c' parents e' : Except (SpecError α) ℕ) = .ok i := by
  rw [bitsRow] at hok ⊢
  rw [he.key_eq, h.radices_eq hc]
  split_ifs at hok ⊢
  exact hok

variable [Scalar α]

/-- **Entries go to the same cells.** -/
theorem placed_eq_ok {place place' : BlockEntry → Except (SpecError α) ℕ}
    (hplace : ∀ e e' i, e.Same e' → place e = .ok i → place' e' = .ok i)
    {entries entries' : List BlockEntry} (hentries : List.Forall₂ BlockEntry.Same entries entries')
    {cells cells' : List (ℕ × α)} (h : b.placed c place cells entries = .ok cells') :
    b'.placed c' place' cells entries' = .ok cells' := by
  induction hentries generalizing cells with
  | nil => exact h
  | @cons e e' _ _ he _ ih =>
    rw [placed] at h ⊢
    split at h
    · cases h
    rename_i i hi
    split at h
    · cases h
    rename_i p hp
    split_ifs at h with htaken
    simp only [hplace e e' i he hi, he.probability_eq_ok hp, if_neg htaken]
    exact ih h

theorem fullTable_eq_ok (h : b.Renumbered σ b') (hc : Renumbering σ c.vars c'.vars)
    {settings : Settings α} {table : List α} (hok : b.fullTable c settings = .ok table) :
    b'.fullTable c' settings = .ok table := by
  obtain ⟨cells, hcells, htable⟩ := fullTable_eq_ok_iff.1 hok
  refine fullTable_eq_ok_iff.2 ⟨cells, ?_, ?_⟩
  · exact placed_eq_ok (fun _ _ _ he => h.fullPlace_eq_ok hc he) h.entries hcells
  · rwa [h.variableIn_eq hc, h.rowCount_eq hc]

theorem rootTable_eq_ok {own : DefaultStates} {e e' : BlockEntry} (he : e.Same e')
    {table : List α} (hok : rootTable own e = .ok table) : rootTable own e' = .ok table := by
  obtain ⟨p, hp, rfl⟩ := map_eq_ok.1 hok
  rw [rootTable, he.probability_eq_ok hp, he.key_eq]
  rfl

theorem shorthandTable_eq_ok (h : b.Renumbered σ b') (hc : Renumbering σ c.vars c'.vars)
    {table : List α} (hok : b.shorthandTable c = .ok table) :
    b'.shorthandTable c' = .ok table := by
  simp only [shorthandTable, bind_eq_ok] at hok ⊢
  obtain ⟨own, hown, parents, hparents, hok⟩ := hok
  refine ⟨own, h.variableIn_eq hc ▸ defaultsIn_eq_ok hown b' c', parents, ?_, ?_⟩
  · rw [h.parents_eq, mapM_eq_ok, List.forall₂_map_left_iff]
    refine (mapM_eq_ok.1 hparents).imp fun p states hstates => ?_
    rw [Catalog.variableAt_renumber hc]
    exact defaultsIn_eq_ok hstates b' c'
  · have hentries := h.entries
    simp only [h.rowCount_eq hc]
    split at hok
    · next e es hnil hcons =>
      rw [hcons] at hentries
      obtain ⟨e', es', he, -, hcons'⟩ := List.forall₂_cons_left_iff.1 hentries
      rw [h.parents_eq, hnil, hcons']
      exact rootTable_eq_ok he hok
    · next hroot =>
      simp only [bind_eq_ok] at hok
      obtain ⟨cells, hcells, _, hcoverage, hok⟩ := hok
      split
      · next e' es' hnil' hcons' =>
        -- the other block has no parents and an entry, and so this one
        rw [hcons'] at hentries
        obtain ⟨e, es, -, -, hcons⟩ := List.forall₂_cons_right_iff.1 hentries
        exact absurd hcons (hroot e es (List.map_eq_nil_iff.1 (h.parents_eq.symm.trans hnil')))
      · rw [checkCoverage_eq_ok_iff] at hcoverage
        exact bind_eq_ok.2 ⟨cells, placed_eq_ok (fun _ _ _ he => h.bitsRow_eq_ok hc he) h.entries
          hcells, bind_eq_ok.2 ⟨(), checkCoverage_eq_ok_iff.2 hcoverage, hok⟩⟩

/-- **If one block describes a node, the other one describes this node** at
    its new position. -/
theorem node_eq_ok (h : b.Renumbered σ b') (hc : Renumbering σ c.vars c'.vars)
    {settings : Settings α} {m : Node α} (hok : b.node c settings = .ok m) :
    b'.node c' settings = .ok (m.renumber σ) := by
  obtain ⟨shorthand, table, hshorthand, htable, rfl⟩ := node_eq_ok_iff.1 hok
  refine node_eq_ok_iff.2 ⟨shorthand, table, h.isShorthand_eq_ok hc hshorthand, ?_, ?_⟩
  · cases shorthand with
    | true => exact h.shorthandTable_eq_ok hc htable
    | false => exact h.fullTable_eq_ok hc htable
  · rw [h.child_eq, h.parents_eq]
    rfl

end Renumbered

end Block

end JointProb
