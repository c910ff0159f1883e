/-
  JointProb — the same block with its parents and its entries in other orders.

      Late <- (Rain, Sky)           Late <- (Sky, Rain)
      (1 | 0, Clear): 0.2           (0 | Clear, 0): 0.8
      (0 | 0, Clear): 0.8           (1 | Clear, 0): 0.2

  * `Block.Rearranged` are two blocks with the same entries, these in another
    order and their labels in the order of the parents;
  * `Block.exists_placed`: such entries fill the same cells, of rows with other
    numbers;
  * `Block.Rearranged.exists_fullTable` and `exists_shorthandTable`: so the
    tables have the same rows, in either notation;
  * `Block.Rearranged.exists_node`: if one block describes a node the other one
    describes its rearrangement, entry by entry the same numbers.
-/
import JointProb.Proofs.Network.ParentOrder
import JointProb.Proofs.Spec.FullTable
import JointProb.Proofs.Spec.MovedKey

namespace JointProb

open Text

variable {α : Type}

/-! ## Cells -/

namespace Block

variable {c : Catalog} {b b' : Block}

/-- The same entries in another order, for the same variable and the same
    parents, these in another order. -/
structure Rearranged (b b' : Block) : Prop where
  child_eq : b'.child = b.child
  parents_perm : b'.parents.Perm b.parents
  nodup_parents : b.parents.Nodup
  entries : ∃ es, List.Forall₂ (BlockEntry.Moved b.parents b'.parents) b.entries es ∧
    es.Perm b'.entries

theorem parentStates_eq_ok_iff {e : BlockEntry} {ps ds : List ℕ} {ls : List (List Char)} :
    (parentStates c e ps ls : Except (SpecError α) (List ℕ)) = .ok ds ↔
      List.Forall₂ (fun x d => (e.stateOf (c.variableAt x.1) x.2 : Except (SpecError α) ℕ) = .ok d)
        (ps.zip ls) ds := by
  induction ps generalizing ls ds with
  | nil => cases ls <;> simp [parentStates, eq_comm]
  | cons p ps ih =>
    cases ls with
    | nil => simp [parentStates, eq_comm]
    | cons l ls =>
      rw [parentStates, List.zip_cons_cons, List.forall₂_cons_left_iff]
      cases e.stateOf (c.variableAt p) l with
      | error err => simp
      | ok state =>
        simp only [map_eq_ok, ih, Except.ok.injEq]
        constructor
        · rintro ⟨rest, hrest, rfl⟩
          exact ⟨state, rest, rfl, hrest, rfl⟩
        · rintro ⟨_, rest, rfl, hrest, rfl⟩
          exact ⟨rest, hrest, rfl⟩

/-- The labels of an entry, if it has a place. -/
theorem exists_of_fullPlace {e : BlockEntry} {i : ℕ}
    (h : (b.fullPlace c e : Except (SpecError α) ℕ) = .ok i) : ∃ child ls s ds,
      (e.labels : Except (SpecError α) _) = .ok (child, ls) ∧ ls.length = b.parents.length ∧
      (e.stateOf (b.variableIn c) child : Except (SpecError α) ℕ) = .ok s ∧
      (parentStates c e b.parents ls : Except (SpecError α) (List ℕ)) = .ok ds ∧
      MixedRadix.value (b.radices c) ds * (b.variableIn c).cardinality + s = i := by
  simp only [fullPlace, bind_eq_ok] at h
  obtain ⟨⟨child, ls⟩, hlabels, h⟩ := h
  split_ifs at h with hlen
  simp only [bind_eq_ok] at h
  obtain ⟨s, hs, ds, hds, h⟩ := h
  exact ⟨child, ls, s, ds, hlabels, not_not.1 hlen, hs, hds, Except.ok.inj h⟩

namespace Rearranged

theorem nodup_parents' (h : b.Rearranged b') : b'.parents.Nodup :=
  h.parents_perm.nodup_iff.2 h.nodup_parents

theorem variableIn_eq (h : b.Rearranged b') : b'.variableIn c = b.variableIn c := by
  rw [variableIn, variableIn, h.child_eq]

theorem rowCount_eq (h : b.Rearranged b') : b'.rowCount c = b.rowCount c := by
  rw [rowCount, rowCount, radices, radices, Catalog.size_perm h.parents_perm]

/-- **An entry in full notation goes to the same cell.** -/
theorem exists_fullPlace (h : b.Rearranged b') {e e' : BlockEntry}
    (he : e.Moved b.parents b'.parents e') {i : ℕ}
    (hi : (b.fullPlace c e : Except (SpecError α) ℕ) = .ok i) :
    ∃ i', (b'.fullPlace c e' : Except (SpecError α) ℕ) = .ok i' ∧
      c.SameCell (b.variableIn c).cardinality b.parents b'.parents i i' := by
  obtain ⟨child, ls, s, ds, hlabels, hlen, hs, hds, rfl⟩ := exists_of_fullPlace hi
  obtain ⟨ls', hlabels', haligned⟩ := he.labels hlabels hlen
  obtain ⟨a, rfl, ha, hds'⟩ := haligned.exists_assignment
    (S := fun p l d => (e.stateOf (c.variableAt p) l : Except (SpecError α) ℕ) = .ok d)
    h.nodup_parents (parentStates_eq_ok_iff.1 hds)
  have hrange : ∀ p ∈ b.parents, a p < c.cardinalityAt p := by
    intro p hp
    obtain ⟨l, hl⟩ := ha p hp
    rw [← Catalog.cardinality_variableAt]
    exact BlockEntry.lt_of_stateOf hl
  have hplace := fullPlace_of_labels (b := b') hlabels' haligned.length_eq'
    (h.variableIn_eq ▸ BlockEntry.stateOf_of_entry hs e')
    (parentStates_eq_ok_iff.2 (hds'.imp fun _ _ hd => BlockEntry.stateOf_of_entry hd e'))
  refine ⟨_, hplace, _, _, s, ⟨a, hrange, rfl, rfl⟩, BlockEntry.lt_of_stateOf hs, rfl, ?_⟩
  rw [h.variableIn_eq]
  rfl

end Rearranged

/-- The false and the true state of a variable that has them. -/
def defaultsAt (c : Catalog) (p : ℕ) : DefaultStates := ((c.variableAt p).defaults?).getD ⟨0, 0⟩

/-- The state that a bit stands for. -/
def bitState (d : DefaultStates) (label : List Char) : ℕ :=
  if label = ['1'] then d.trueState else d.falseState

/-- The states that bits stand for, one by one. -/
theorem zipWith_bits (c : Catalog) (ps : List ℕ) (key : List Char) :
    List.zipWith (fun bit (d : DefaultStates) => if bit = '1' then d.trueState else d.falseState)
        key (ps.map (defaultsAt c)) =
      (ps.zip (key.map fun bit => [bit])).map fun x => bitState (defaultsAt c x.1) x.2 := by
  rw [List.zipWith_map_right, List.zip_map_right, List.map_map, List.zip, List.map_zipWith,
    List.zipWith_comm]
  congr 1
  funext p bit
  simp [bitState]

theorem exists_of_bitsRow {e : BlockEntry} {i : ℕ}
    (h : (b.bitsRow c (b.parents.map (defaultsAt c)) e : Except (SpecError α) ℕ) = .ok i) :
    e.key.length = b.parents.length ∧ Line.isPattern e.key ∧ MixedRadix.value (b.radices c)
      ((b.parents.zip (e.key.map fun bit => [bit])).map fun x =>
        bitState (defaultsAt c x.1) x.2) = i := by
  rw [bitsRow] at h
  split_ifs at h with hkey
  rw [List.length_map] at hkey
  exact ⟨hkey.1, hkey.2, zipWith_bits c b.parents e.key ▸ Except.ok.inj h⟩

namespace Rearranged

/-- **An entry in shorthand goes to the same row.** -/
theorem exists_bitsRow (h : b.Rearranged b') {e e' : BlockEntry}
    (he : e.Moved b.parents b'.parents e')
    (hdefaults : ∀ p ∈ b.parents, ∃ d, (c.variableAt p).defaults? = some d) {i : ℕ}
    (hi : (b.bitsRow c (b.parents.map (defaultsAt c)) e : Except (SpecError α) ℕ) = .ok i) :
    ∃ i', (b'.bitsRow c (b'.parents.map (defaultsAt c)) e' : Except (SpecError α) ℕ) = .ok i' ∧
      c.SameRow b.parents b'.parents i i' := by
  obtain ⟨hlen, hpattern, rfl⟩ := exists_of_bitsRow hi
  obtain ⟨hpattern', haligned⟩ := he.bits hpattern hlen
  obtain ⟨a, hstates, ha, hstates'⟩ := haligned.exists_assignment
    (S := fun p l d => bitState (defaultsAt c p) l = d) h.nodup_parents
    (List.forall₂_map_right_iff.2 (List.forall₂_same.2 fun _ _ => rfl))
  rw [← List.forall₂_map_left_iff, List.forall₂_eq_eq_eq] at hstates'
  have hrange : ∀ p ∈ b.parents, a p < c.cardinalityAt p := by
    intro p hp
    obtain ⟨l, hl⟩ := ha p hp
    obtain ⟨d, hd⟩ := hdefaults p hp
    have hlt := Variable.lt_of_defaults? hd
    rw [← Catalog.cardinality_variableAt, ← hl, bitState, defaultsAt, hd, Option.getD_some]
    split_ifs
    · exact hlt.2
    · exact hlt.1
  have hlen' : e'.key.length = (b'.parents.map (defaultsAt c)).length := by
    simpa using haligned.length_eq'
  refine ⟨_, if_pos ⟨hlen', hpattern'⟩, a, hrange, ?_, ?_⟩
  · rw [hstates]
    rfl
  · rw [zipWith_bits, hstates']
    rfl

end Rearranged

/-- **Entries fill the same cells**, these at other places. -/
theorem exists_placed [Scalar α] (b' : Block) {T : ℕ → ℕ → Prop}
    (hT : ∀ {i j i' j'}, T i i' → T j j' → (i = j ↔ i' = j'))
    {place place' : BlockEntry → Except (SpecError α) ℕ} {ps ps' : List ℕ}
    {entries es entries' : List BlockEntry}
    (hplace : ∀ e e' i, e.Moved ps ps' e' → place e = .ok i → ∃ i', place' e' = .ok i' ∧ T i i')
    (hentries : List.Forall₂ (BlockEntry.Moved ps ps') entries es) (hperm : es.Perm entries')
    {cells : List (ℕ × α)} (h : b.placed c place [] entries = .ok cells) :
    ∃ cells', b'.placed c place' [] entries' = .ok cells' ∧ cells'.length = cells.length ∧
      ∀ {i i'}, T i i' → cells'.lookup i' = cells.lookup i := by
  obtain ⟨cells, rfl, hcells, hnodup⟩ := exists_of_placed h
  obtain ⟨moved, hmoved, hsame⟩ := exists_forall₂_join hcells hentries
    (T := fun e' (y : ℕ × α) => place' e' = .ok y.1 ∧
      Line.probability e'.line e'.value = .ok y.2)
    (U := fun x y => T x.1 y.1 ∧ y.2 = x.2) fun e x e' hx he => by
      obtain ⟨i', hi', hi⟩ := hplace e e' x.1 he hx.1
      exact ⟨(i', x.2), ⟨hi', he.probability_eq_ok hx.2⟩, hi, rfl⟩
  obtain ⟨cells', hcells', hperm'⟩ := List.perm_comp_forall₂ hperm.symm hmoved
  have hmoved' : (moved.map Prod.fst).Nodup :=
    nodup_of_forall₂ (T := T) (fun hi hj => (hT hi hj).2 rfl) hsame (hnodup .nil)
  have hnodup' : (cells'.map Prod.fst).Nodup := (hperm'.map Prod.fst).nodup_iff.2 hmoved'
  refine ⟨cells', placed_eq_ok hcells' hnodup', ?_, fun {i i'} hi => ?_⟩
  · rw [hperm'.length_eq, ← hsame.length_eq]
  · rw [lookup_perm hperm' hnodup', lookup_eq_of_forall₂ hT hsame hi]

/-! ## Tables -/

theorem length_cellRows [Scalar α] (cells : List (ℕ × α)) (rows k : ℕ) :
    (cellRows cells rows k).flatten.length = rows * k := by
  rw [cellRows, flatten_map_rows fun i => (cells.lookup i).getD 0, List.length_map,
    List.length_range]

/-- What is where in a table of rows. -/
theorem getElem?_cellRows [Scalar α] (cells : List (ℕ × α)) {rows k i : ℕ} (hi : i < rows * k) :
    (cellRows cells rows k).flatten[i]? = some ((cells.lookup i).getD 0) := by
  rw [cellRows, flatten_map_rows fun i => (cells.lookup i).getD 0]
  simp [hi]

/-- A row of two states is a row of cells for one of them. -/
theorem pair_eq_map_range (own : DefaultStates) (x y : α) :
    pair own x y = (List.range 2).map fun s =>
      if s = 0 ↔ own.trueState = 0 then y else x := by
  by_cases h : own.trueState = 0 <;> simp [pair, h, List.range_succ]

theorem getElem?_flatMap_pair (own : DefaultStates) (f g : ℕ → α) {rows r s : ℕ} (hr : r < rows)
    (hs : s < 2) : ((List.range rows).flatMap fun r => pair own (f r) (g r))[r * 2 + s]? =
      (pair own (f r) (g r))[s]? := by
  have hrow (r : ℕ) : pair own (f r) (g r) = (List.range 2).map fun s =>
      if (r * 2 + s) % 2 = 0 ↔ own.trueState = 0 then g ((r * 2 + s) / 2)
      else f ((r * 2 + s) / 2) := by
    rw [pair_eq_map_range]
    refine List.map_congr_left fun s hs => ?_
    have hs := List.mem_range.1 hs
    rw [(by omega : (r * 2 + s) % 2 = s), (by omega : (r * 2 + s) / 2 = r)]
  rw [List.flatMap_def, List.map_congr_left fun r _ => hrow r, hrow r,
    flatten_map_rows fun i => if i % 2 = 0 ↔ own.trueState = 0 then g (i / 2) else f (i / 2)]
  simp [Catalog.cell_lt hr hs, hs]

namespace Rearranged

variable [Scalar α]

/-- **Tables in full notation have the same rows.** -/
theorem exists_fullTable (h : b.Rearranged b') {settings : Settings α} {table : List α}
    (hok : b.fullTable c settings = .ok table) :
    ∃ table', b'.fullTable c settings = .ok table' ∧ table'.length = table.length ∧
      ∀ {i i'}, c.SameCell (b.variableIn c).cardinality b.parents b'.parents i i' →
        table'[i']? = table[i]? := by
  obtain ⟨cells, hcells, hcoverage, hrows, rfl⟩ := fullTable_eq_ok_iff.1 hok
  obtain ⟨es, hes, hperm⟩ := h.entries
  obtain ⟨cells', hcells', hlength, hlookup⟩ := exists_placed b'
    (fun hi hj => hi.eq_iff h.parents_perm hj) (fun _ _ _ he => h.exists_fullPlace he) hes hperm
    hcells
  have htable : b'.fullTable c settings =
      .ok (cellRows cells' (b.rowCount c) (b.variableIn c).cardinality).flatten := by
    rw [fullTable_eq_ok_iff, h.variableIn_eq, h.rowCount_eq]
    refine ⟨cells', hcells', hlength.trans hcoverage, fun ps hps => ?_, rfl⟩
    -- each row is one of the given block
    obtain ⟨r', hr', rfl⟩ := List.mem_map.1 hps
    rw [List.mem_range, ← h.rowCount_eq] at hr'
    obtain ⟨r, hr⟩ := Catalog.exists_sameRow h.nodup_parents' hr' b.parents
    have hsame := hr.symm h.parents_perm.symm
    have hrow : ((List.range (b.variableIn c).cardinality).map fun s =>
        (cells'.lookup (r' * (b.variableIn c).cardinality + s)).getD 0) =
          (List.range (b.variableIn c).cardinality).map fun s =>
            (cells.lookup (r * (b.variableIn c).cardinality + s)).getD 0 :=
      List.map_congr_left fun s hs => by
        rw [hlookup ⟨r, r', s, hsame, List.mem_range.1 hs, rfl, rfl⟩]
    rw [hrow]
    exact hrows _ (List.mem_map_of_mem (List.mem_range.2 hsame.lt))
  refine ⟨_, htable, by rw [length_cellRows, length_cellRows], fun {i i'} hi => ?_⟩
  obtain ⟨hlt, hlt'⟩ : i < b.rowCount c * _ ∧ i' < b.rowCount c * _ := hi.lt h.parents_perm
  rw [getElem?_cellRows cells hlt, getElem?_cellRows cells' hlt', hlookup hi]

/-- The states of the parents that bits stand for. -/
theorem eq_map_defaultsAt {parents : List DefaultStates}
    (h : List.Forall₂ (fun p d => (c.variableAt p).isBinary ∧ (c.variableAt p).defaults? = some d)
      b.parents parents) : parents = b.parents.map (defaultsAt c) := by
  rw [← List.forall₂_eq_eq_eq, List.forall₂_map_right_iff]
  exact h.flip.imp fun p d hd => by rw [defaultsAt, hd.2, Option.getD_some]

/-- **Tables in shorthand have the same rows.** -/
theorem exists_shorthandTable (h : b.Rearranged b') (hne : b.parents ≠ []) {table : List α}
    (hok : b.shorthandTable c = .ok table) :
    ∃ table', b'.shorthandTable c = .ok table' ∧ table'.length = table.length ∧
      ∀ {i i'}, c.SameCell (b.variableIn c).cardinality b.parents b'.parents i i' →
        table'[i']? = table[i]? := by
  have hne' : b'.parents ≠ [] := fun hnil => hne (List.perm_nil.1 (hnil ▸ h.parents_perm).symm)
  obtain ⟨own, parents, cells, hown, hparents, hcells, hcoverage, rfl⟩ :=
    (shorthandTable_eq_ok_iff hne).1 hok
  obtain rfl := eq_map_defaultsAt hparents
  rw [List.forall₂_map_right_iff, List.forall₂_same] at hparents
  obtain ⟨es, hes, hperm⟩ := h.entries
  obtain ⟨cells', hcells', hlength, hlookup⟩ := exists_placed b'
    (fun hi hj => hi.eq_iff h.parents_perm hj)
    (fun _ _ _ he => h.exists_bitsRow he fun p hp => ⟨_, (hparents p hp).2⟩) hes hperm hcells
  have htable := (shorthandTable_eq_ok_iff hne' (c := c)).2
    ⟨own, b'.parents.map (defaultsAt c), cells', h.variableIn_eq ▸ hown,
      List.forall₂_map_right_iff.2 (List.forall₂_same.2 fun p hp =>
        hparents p (h.parents_perm.mem_iff.1 hp)),
      hcells', by rw [hlength, hcoverage, h.rowCount_eq], rfl⟩
  have hcard : (b.variableIn c).cardinality = 2 := by simpa [Variable.isBinary] using hown.1
  rw [h.rowCount_eq] at htable
  refine ⟨_, htable, by simp [List.length_flatMap, pair_eq_map_range], fun {i i'} hi => ?_⟩
  obtain ⟨r, r', s, hrow, hs, rfl, rfl⟩ := hi
  have hlt : r < b.rowCount c := hrow.lt
  have hlt' : r' < b.rowCount c := h.rowCount_eq ▸ (hrow.symm h.parents_perm).lt
  rw [hcard] at hs ⊢
  rw [getElem?_flatMap_pair own _ _ hlt' hs, getElem?_flatMap_pair own _ _ hlt hs,
    hlookup hrow]

end Rearranged

/-! ## Notations -/

namespace Rearranged

theorem length_entries_eq (h : b.Rearranged b') : b'.entries.length = b.entries.length := by
  obtain ⟨es, hes, hperm⟩ := h.entries
  rw [← hperm.length_eq, hes.length_eq]

theorem parents_eq_nil_iff (h : b.Rearranged b') : b'.parents = [] ↔ b.parents = [] := by
  rw [← List.length_eq_zero_iff, ← List.length_eq_zero_iff, h.parents_perm.length_eq]

/-- A single entry of a block without parents stays as it is. -/
theorem renumbered_refl (h : b.Rearranged b') (hroot : b.parents = [])
    (hlength : b.entries.length = 1) : b.Renumbered (Equiv.refl ℕ) b' := by
  obtain ⟨es, hes, hperm⟩ := h.entries
  obtain ⟨e, he⟩ := List.length_eq_one_iff.1 hlength
  rw [he, List.forall₂_cons_left_iff] at hes
  obtain ⟨e', _, hmoved, hnil, rfl⟩ := hes
  rw [List.forall₂_nil_left_iff.1 hnil, List.singleton_perm] at hperm
  refine ⟨h.child_eq, by rw [h.parents_eq_nil_iff.2 hroot, hroot]; rfl, ?_⟩
  rw [he, ← hperm]
  refine .cons ⟨?_, hmoved.value_eq⟩ .nil
  rcases hmoved.key with ⟨-, hkey⟩ | ⟨hne, -⟩
  · exact hkey
  · exact absurd hroot hne

theorem isShorthand_eq_ok (h : b.Rearranged b')
    (hmany : ¬ (b.parents = [] ∧ b.entries.length = 1)) {shorthand : Bool}
    (hok : (b.isShorthand c : Except (SpecError α) Bool) = .ok shorthand) :
    (b'.isShorthand c : Except (SpecError α) Bool) = .ok shorthand := by
  by_cases hroot : b.parents = []
  · have hlength : b.entries.length ≠ 1 := fun hlength => hmany ⟨hroot, hlength⟩
    rw [isShorthand_root hroot hlength] at hok
    rw [isShorthand_root (h.parents_eq_nil_iff.2 hroot) (h.length_entries_eq ▸ hlength), ← hok]
  · obtain ⟨es, hes, hperm⟩ := h.entries
    obtain ⟨hall, hempty⟩ := (isShorthand_eq_ok_iff hroot).1 hok
    refine (isShorthand_eq_ok_iff (mt h.parents_eq_nil_iff.1 hroot)).2
      ⟨fun e' he' => ?_, fun hnil => hempty ?_⟩
    · obtain ⟨e, he, hmoved⟩ := exists_left_of_forall₂ hes (hperm.mem_iff.2 he')
      rw [hmoved.isFull_eq, hall e he]
    · rw [← List.length_eq_zero_iff, ← h.length_entries_eq, hnil, List.length_nil]

variable [Scalar α]

/-- **If one block describes a node the other one describes its
    rearrangement.** -/
theorem exists_node (h : b.Rearranged b') {settings : Settings α} {m : Node α}
    (hok : b.node c settings = .ok m) :
    ∃ m', b'.node c settings = .ok m' ∧ m.Rearranged c m' := by
  by_cases hmany : b.parents = [] ∧ b.entries.length = 1
  · -- a single entry without parents, its notation told by its key
    have hsame := h.renumbered_refl hmany.1 hmany.2
    refine ⟨_, hsame.node_eq_ok (fun _ => rfl) hok, ?_⟩
    rw [Node.renumber_refl]
    exact .refl c m
  obtain ⟨shorthand, table, hshorthand, htable, rfl⟩ := node_eq_ok_iff.1 hok
  have hshorthand' := h.isShorthand_eq_ok hmany hshorthand
  obtain ⟨table', htable', hlength, hcells⟩ : ∃ table',
      (if shorthand then b'.shorthandTable c else b'.fullTable c settings) = .ok table' ∧
      table'.length = table.length ∧ ∀ {i i'},
        c.SameCell (b.variableIn c).cardinality b.parents b'.parents i i' →
          table'[i']? = table[i]? := by
    cases shorthand with
    | true =>
      refine h.exists_shorthandTable (fun hroot => ?_) htable
      rw [isShorthand_root hroot fun hlength => hmany ⟨hroot, hlength⟩] at hshorthand
      cases hshorthand
    | false => exact h.exists_fullTable htable
  refine ⟨_, node_eq_ok_iff.2 ⟨shorthand, table', hshorthand', htable', rfl⟩,
    h.child_eq, h.parents_perm, hlength, fun {i i'} hi => hcells ?_⟩
  rwa [variableIn, Catalog.cardinality_variableAt]

end Rearranged

end Block

end JointProb
