/-
  JointProb — tables in full notation.

  * `Node.stateLabel` and `Node.parentLabels` say what an entry of a table is
    for;
  * `Block.fullPlace_of_labels`: labels lead to the place of the entry, and
    back to it (`Block.fullPlace_eq_ok`);
  * `Block.placed_eq_ok`: entries in any order fill their places;
  * `Block.fullTable_eq_map`: entries for all places, in any order, are the
    table;
  * `Block.node_eq_ok`: a block with an entry for each place of a table
    describes the table.
-/
import JointProb.Proofs.Network.Kernel
import JointProb.Proofs.Spec.Block
import JointProb.Proofs.Spec.NetworkLine

namespace JointProb

open Text

variable {α : Type}

/-! ## Labels -/

namespace Catalog

variable (c : Catalog)

/-- The label of a state of a variable. -/
def labelAt (v s : Nat) : String := (c.label? v s).getD ""

variable {c} {v s : Nat}

theorem cardinality_variableAt : (c.variableAt v).cardinality = c.cardinalityAt v := by
  cases hv : c.vars[v]? <;>
    simp [variableAt, cardinalityAt, cardinalities, hv, Variable.cardinality]

/-- A state in range has a label. -/
theorem getElem?_labelAt (h : s < c.cardinalityAt v) :
    (c.variableAt v).states[s]? = some (c.labelAt v s) := by
  obtain ⟨w, hw, hs⟩ := lt_cardinalityAt_iff.1 h
  have hget := List.getElem?_eq_getElem (l := w.states) hs
  simp [variableAt, labelAt, label?, hw, hget]

theorem isLabel_labelAt (hlabels : ∀ v ∈ c.vars, ∀ l ∈ v.states, IsLabel l)
    (h : s < c.cardinalityAt v) : IsLabel (c.labelAt v s) := by
  obtain ⟨w, hw, hs⟩ := lt_cardinalityAt_iff.1 h
  have hget := getElem?_labelAt h
  have hvar : c.variableAt v = w := by simp [variableAt, hw]
  rw [hvar] at hget
  exact hlabels w (List.mem_of_getElem? hw) _ (List.mem_of_getElem? hget)

end Catalog

namespace Node

variable (c : Catalog) (m : Node α)

/-- The label of the state that the entry at a place is for. -/
def stateLabel (i : Nat) : String := c.labelAt m.child (i % c.cardinalityAt m.child)

/-- The labels of the states of the parents that it is for. -/
def parentLabels (i : Nat) : List String :=
  List.zipWith c.labelAt m.parents (MixedRadix.digits (m.radices c) (i / c.cardinalityAt m.child))

/-- The rows of the table. -/
def rows : List (List α) :=
  let k := c.cardinalityAt m.child
  (List.range (m.rowCount c)).map fun r => (m.table.drop (r * k)).take k

variable {c m} {i : Nat}

theorem div_lt_rowCount (h : i < m.rowCount c * c.cardinalityAt m.child) :
    i / c.cardinalityAt m.child < m.rowCount c :=
  Nat.div_lt_of_lt_mul (Nat.mul_comm _ _ ▸ h)

theorem mod_lt_cardinalityAt (h : i < m.rowCount c * c.cardinalityAt m.child) :
    i % c.cardinalityAt m.child < c.cardinalityAt m.child :=
  Nat.mod_lt _ (Nat.pos_of_mul_pos_left (Nat.zero_lt_of_lt h))

theorem isLabel_stateLabel (hlabels : ∀ v ∈ c.vars, ∀ l ∈ v.states, IsLabel l)
    (h : i < m.rowCount c * c.cardinalityAt m.child) : IsLabel (m.stateLabel c i) :=
  Catalog.isLabel_labelAt hlabels (mod_lt_cardinalityAt h)

theorem length_parentLabels : (m.parentLabels c i).length = m.parents.length := by
  simp [parentLabels, MixedRadix.length_digits, radices]

theorem isLabel_parentLabels (hlabels : ∀ v ∈ c.vars, ∀ l ∈ v.states, IsLabel l)
    (h : i < m.rowCount c * c.cardinalityAt m.child) : ∀ l ∈ m.parentLabels c i, IsLabel l := by
  have hbelow := MixedRadix.below_digits (div_lt_rowCount h)
  rw [MixedRadix.Below, radices, List.forall₂_map_right_iff] at hbelow
  intro l hl
  obtain ⟨j, hj, rfl⟩ := List.getElem_of_mem hl
  have hparent : j < m.parents.length := length_parentLabels (c := c) (m := m) ▸ hj
  have hdigit := (List.forall₂_iff_get.1 hbelow).2 j (hbelow.length_eq ▸ hparent) hparent
  simp only [parentLabels, List.getElem_zipWith]
  exact Catalog.isLabel_labelAt hlabels hdigit

end Node

/-! ## Places -/

namespace BlockEntry

open NetworkLine (keyLabels)

variable {e : BlockEntry}

theorem isFull_of_key {state : String} {states : List String}
    (h : e.key = NetworkLine.key state states) :
    e.isFull := by
  simp [isFull, h, NetworkLine.key]

/-- **The labels in a key.** -/
theorem labels_eq_ok {state : String} {states : List String}
    (h : e.key = NetworkLine.key state states) (hstate : IsLabel state) (hstates : ∀ l ∈ states, IsLabel l) :
    (e.labels : Except (SpecError α) (List Char × List (List Char))) =
      .ok (state.toList, states.map String.toList) := by
  have hinner : (dropStart? ['('] e.key).bind (dropEnd? [')']) = some (keyLabels state states) := by
    rw [h]
    exact dropParens _
  have hbar := hstate.notMem '|' (by decide)
  simp only [labels, isFull_of_key h, if_true, hinner]
  cases states with
  | nil =>
    have hlabels : keyLabels state [] = state.toList := by simp [keyLabels]
    rw [hlabels, cut?_eq_none (contains_eq_false hbar)]
    simp only [hstate.trim_eq, List.map_nil]
  | cons l ls =>
    have hlabels : keyLabels state (l :: ls) =
        (state.toList ++ [' ']) ++ '|' :: ' ' :: spelled (l :: ls) := by simp [keyLabels]
    have hfields : fields (' ' :: spelled (l :: ls)) = (l :: ls).map String.toList :=
      fields_blank_spelled (List.cons_ne_nil l ls)
        (fun x hx => (hstates x hx).notMem ',' (by decide))
        fun x hx => (hstates x hx).trim_eq
    rw [hlabels, cut?_append (by simpa using hbar)]
    simp only [trim_append_blank, hstate.trim_eq, hfields]

/-- A key without parentheses is a label. -/
theorem labels_of_label {label : String} (h : e.key = label.toList) (hlabel : IsLabel label) :
    (e.labels : Except (SpecError α) (List Char × List (List Char))) = .ok (label.toList, []) := by
  have hparen : label.toList.head? ≠ some '(' := fun hhead =>
    hlabel.notMem '(' (by decide) (List.mem_of_head? hhead)
  have hfull : e.isFull = false := by simp [isFull, h, hparen]
  have hbar := hlabel.notMem '|' (by decide)
  simp only [labels, hfull, Bool.false_eq_true, if_false, h,
    cut?_eq_none (contains_eq_false hbar), hlabel.trim_eq]

/-- A label leads to the first state that has it. -/
theorem stateOf_of_mem {v : Variable} {label : String} (h : label ∈ v.states) :
    (e.stateOf v label.toList : Except (SpecError α) Nat) = .ok (v.states.idxOf label) := by
  have hfind : v.states.findIdx? (· == label) = some (v.states.idxOf label) :=
    List.findIdx?_eq_some_of_exists ⟨label, h, beq_self_eq_true label⟩
  simp only [stateOf, Variable.resolve?, String.ofList_toList, hfind]

/-- The label of a state leads back to it. -/
theorem stateOf_labelAt {c : Catalog} (hnodup : ∀ v ∈ c.vars, v.states.Nodup) {v s : Nat}
    (h : s < c.cardinalityAt v) :
    (e.stateOf (c.variableAt v) (c.labelAt v s).toList : Except (SpecError α) Nat) = .ok s := by
  obtain ⟨w, hw, hs⟩ := Catalog.lt_cardinalityAt_iff.1 h
  have hget := Catalog.getElem?_labelAt h
  have hvar : c.variableAt v = w := by simp [Catalog.variableAt, hw]
  rw [hvar] at hget ⊢
  obtain ⟨hlt, hlabel⟩ := List.getElem?_eq_some_iff.1 hget
  rw [stateOf_of_mem (List.mem_of_getElem? hget), ← hlabel,
    (hnodup w (List.mem_of_getElem? hw)).idxOf_getElem s hlt]

end BlockEntry

namespace Block

variable {c : Catalog} {b : Block} {m : Node α}

/-- If each label leads to a state, those of the parents do. -/
theorem parentStates_zipWith {β : Type} {e : BlockEntry} {label : Nat → β → List Char}
    {state : Nat → β → Nat} {ps : List Nat} {xs : List β}
    (h : List.Forall₂ (fun p x =>
      (e.stateOf (c.variableAt p) (label p x) : Except (SpecError α) Nat) = .ok (state p x)) ps xs) :
    (parentStates c e ps (List.zipWith label ps xs) : Except (SpecError α) (List Nat)) =
      .ok (List.zipWith state ps xs) := by
  induction h with
  | nil => rfl
  | cons hx _ ih =>
    simp only [List.zipWith_cons_cons, parentStates, hx, ih]
    rfl

/-- The labels of the states of the parents lead back to these. -/
theorem parentStates_eq_ok (hnodup : ∀ v ∈ c.vars, v.states.Nodup) {ps ds : List Nat}
    (h : MixedRadix.Below (ps.map c.cardinalityAt) ds) (e : BlockEntry) :
    (parentStates c e ps ((List.zipWith c.labelAt ps ds).map String.toList) :
      Except (SpecError α) (List Nat)) = .ok ds := by
  rw [MixedRadix.Below, List.forall₂_map_right_iff] at h
  have hlabels : List.Forall₂ (fun p d =>
      (e.stateOf (c.variableAt p) (c.labelAt p d).toList : Except (SpecError α) Nat) = .ok d)
      ps ds :=
    h.flip.imp fun _ _ hd => BlockEntry.stateOf_labelAt hnodup hd
  have hstates : List.zipWith (fun _ d => d) ps ds = ds :=
    List.ext_getElem (by simp [h.length_eq]) (by simp)
  rw [List.map_zipWith, parentStates_zipWith hlabels, hstates]

/-- **Labels lead to the place of an entry.** -/
theorem fullPlace_of_labels {e : BlockEntry} {label : List Char} {labels : List (List Char)}
    {state : Nat} {states : List Nat}
    (hread : (e.labels : Except (SpecError α) (List Char × List (List Char))) = .ok (label, labels))
    (hlen : labels.length = b.parents.length)
    (hstate : (e.stateOf (b.variableIn c) label : Except (SpecError α) Nat) = .ok state)
    (hstates : (parentStates c e b.parents labels : Except (SpecError α) (List Nat)) = .ok states) :
    (b.fullPlace c e : Except (SpecError α) Nat) =
      .ok (MixedRadix.value (b.radices c) states * (b.variableIn c).cardinality + state) := by
  rw [fullPlace]
  simp only [hread, bind, Except.bind, if_neg (not_not.2 hlen), hstate, hstates]

/-- **The labels of an entry lead back to its place.** -/
theorem fullPlace_eq_ok (hchild : b.child = m.child) (hparents : b.parents = m.parents)
    (hnodup : ∀ v ∈ c.vars, v.states.Nodup) (hlabels : ∀ v ∈ c.vars, ∀ l ∈ v.states, IsLabel l)
    {i : Nat} (hi : i < m.rowCount c * c.cardinalityAt m.child) {e : BlockEntry}
    (he : e.key = NetworkLine.key (m.stateLabel c i) (m.parentLabels c i)) :
    (b.fullPlace c e : Except (SpecError α) Nat) = .ok i := by
  have hread := BlockEntry.labels_eq_ok (α := α) he (Node.isLabel_stateLabel hlabels hi)
    (Node.isLabel_parentLabels hlabels hi)
  have hlen : ((m.parentLabels c i).map String.toList).length = b.parents.length := by
    rw [List.length_map, Node.length_parentLabels, hparents]
  have hstate : (e.stateOf (b.variableIn c) (m.stateLabel c i).toList :
      Except (SpecError α) Nat) = .ok (i % c.cardinalityAt m.child) := by
    rw [variableIn, hchild]
    exact BlockEntry.stateOf_labelAt hnodup (Node.mod_lt_cardinalityAt hi)
  have hrow := Node.div_lt_rowCount hi
  have hstates : (parentStates c e b.parents ((m.parentLabels c i).map String.toList) :
      Except (SpecError α) (List Nat)) =
      .ok (MixedRadix.digits (m.radices c) (i / c.cardinalityAt m.child)) :=
    hparents ▸ parentStates_eq_ok hnodup (MixedRadix.below_digits hrow) e
  have hradices : b.radices c = m.radices c := by rw [Block.radices, hparents, Node.radices]
  rw [fullPlace_of_labels hread hlen hstate hstates, hradices, MixedRadix.value_digits hrow,
    variableIn, hchild, Catalog.cardinality_variableAt, Nat.div_add_mod']

/-! ## Cells -/

/-- Cells with places of their own are all taken in. -/
theorem placed_eq_ok [Scalar α] {place : BlockEntry → Except (SpecError α) Nat}
    {es : List BlockEntry} {xs cells : List (Nat × α)}
    (h : List.Forall₂ (fun e x => place e = .ok x.1 ∧
      Line.probability e.line e.value = .ok x.2) es xs)
    (hnodup : ((cells ++ xs).map Prod.fst).Nodup) :
    b.placed c place cells es = .ok (cells ++ xs) := by
  induction h generalizing cells with
  | nil => rw [List.append_nil]; rfl
  | @cons e x es xs hx _ ih =>
    have hnew : cells.any (·.1 == x.1) = false := by
      rw [List.any_eq_false]
      intro y hy heq
      rw [List.map_append] at hnodup
      refine List.disjoint_of_nodup_append hnodup (List.mem_map_of_mem hy) ?_
      simp [eq_of_beq heq]
    have hrest := @ih (cells ++ [x]) (by simpa using hnodup)
    simp only [placed, hx.1, hx.2, hnew]
    simpa using hrest

/-- Entries go to places and have the values that belong there. -/
def Fills [Scalar α] (place : BlockEntry → Except (SpecError α) Nat) (f : Nat → α) :
    List BlockEntry → List Nat → Prop :=
  List.Forall₂ fun e i => place e = .ok i ∧ Line.probability e.line e.value = .ok (f i)

theorem Fills.placed_eq_ok [Scalar α] {place : BlockEntry → Except (SpecError α) Nat}
    {f : Nat → α} {es : List BlockEntry} {places : List Nat} (h : Fills place f es places)
    (hnodup : places.Nodup) :
    b.placed c place [] es = .ok (places.map fun i => (i, f i)) := by
  refine Block.placed_eq_ok (List.forall₂_map_right_iff.2 h) ?_
  simpa [Function.comp_def] using hnodup

/-! ## Rows -/

/-- Row by row the places are in order. -/
theorem flatten_map_rows {β : Type} (f : Nat → β) (rows k : Nat) :
    ((List.range rows).map fun r => (List.range k).map fun s => f (r * k + s)).flatten =
      (List.range (rows * k)).map f := by
  induction rows with
  | zero => simp
  | succ rows ih =>
    rw [List.range_succ, List.map_append, List.flatten_append, ih, Nat.succ_mul, List.range_add]
    simp

/-- A row is read entry by entry. -/
theorem take_drop_eq_map [Zero α] {xs : List α} {k r : Nat} (h : (r + 1) * k ≤ xs.length) :
    (xs.drop (r * k)).take k = (List.range k).map fun s => (xs[r * k + s]?).getD 0 := by
  rw [Nat.succ_mul] at h
  refine List.ext_getElem (by simp; omega) fun s hs hs' => ?_
  rw [List.length_map, List.length_range] at hs'
  have hlt : r * k + s < xs.length := by omega
  simp [hlt]

/-! ## Blocks -/

/-- A block whose keys have parentheses is in full notation. -/
theorem isShorthand_of_isFull (h : ∀ e ∈ b.entries, e.isFull) :
    (b.isShorthand c : Except (SpecError α) Bool) = .ok false := by
  by_cases hroot : b.parents = []
  · by_cases hone : b.entries.length = 1
    · obtain ⟨e, hentries⟩ := List.length_eq_one_iff.1 hone
      have hfull := h e (by simp [hentries])
      have hkey : e.key ≠ ['0'] ∧ e.key ≠ ['1'] := by
        constructor <;> intro hk <;> simp [BlockEntry.isFull, hk] at hfull
      simp [isShorthand_single hroot hentries, hkey]
    · exact isShorthand_root hroot hone
  · exact (isShorthand_eq_ok_iff hroot).2 ⟨h, fun _ => rfl⟩

variable [Scalar α] {settings : Settings α} {places : List Nat}

/-- **Entries for all places, in any order, are the table.** -/
theorem fullTable_eq_map {f : Nat → α} {rows k : Nat} (hcount : b.rowCount c = rows)
    (hstates : (b.variableIn c).cardinality = k) (hplaces : places.Perm (List.range (rows * k)))
    (hentries : Fills (b.fullPlace c) f b.entries places)
    (hrows : ∀ r < rows, Weights.near settings.tolerances.sum
      (Weights.compensatedSum ((List.range k).map fun s => f (r * k + s))) 1) :
    b.fullTable c settings = .ok ((List.range (rows * k)).map f) := by
  have hcells := hentries.placed_eq_ok (c := c) (b := b) (hplaces.nodup_iff.2 List.nodup_range)
  have hfound : (places.map fun i => (i, f i)).length = rows * k := by
    rw [List.length_map, hplaces.length_eq, List.length_range]
  have htable : cellRows (places.map fun i => (i, f i)) rows k =
      (List.range rows).map fun r => (List.range k).map fun s => f (r * k + s) := by
    refine List.map_congr_left fun r hr => List.map_congr_left fun s hs => ?_
    have hlt : r * k + s < rows * k := by
      have hrow := Nat.mul_le_mul_right k (Nat.succ_le_of_lt (List.mem_range.1 hr))
      have hstate := List.mem_range.1 hs
      rw [Nat.succ_mul] at hrow
      omega
    rw [List.lookup_graph f (hplaces.mem_iff.2 (List.mem_range.2 hlt)), Option.getD_some]
  rw [fullTable_eq_ok_iff, hcount, hstates]
  refine ⟨_, hcells, hfound, ?_, ?_⟩
  · rw [htable]
    simpa using hrows
  · rw [htable, flatten_map_rows]

/-- Entries for all places of a table give the table. -/
theorem fullTable_eq_ok (hchild : b.child = m.child) (hparents : b.parents = m.parents)
    (hnodup : ∀ v ∈ c.vars, v.states.Nodup) (hlabels : ∀ v ∈ c.vars, ∀ l ∈ v.states, IsLabel l)
    (hlen : m.table.length = m.rowCount c * c.cardinalityAt m.child)
    (hplaces : places.Perm (List.range m.table.length))
    (hentries : List.Forall₂ (fun e i =>
      e.key = NetworkLine.key (m.stateLabel c i) (m.parentLabels c i) ∧
        Line.probability e.line e.value = .ok ((m.table[i]?).getD 0)) b.entries places)
    (hrows : ∀ ps ∈ m.rows c,
      Weights.near settings.tolerances.sum (Weights.compensatedSum ps) 1) :
    b.fullTable c settings = .ok m.table := by
  have hcount : b.rowCount c = m.rowCount c := by
    rw [Block.rowCount, Block.radices, hparents, Node.rowCount, Node.radices]
  have hstates : (b.variableIn c).cardinality = c.cardinalityAt m.child := by
    rw [variableIn, hchild, Catalog.cardinality_variableAt]
  have hfull : Fills (b.fullPlace c) (fun i => (m.table[i]?).getD 0) b.entries places := by
    refine forall₂_imp_mem hentries fun e _ i hi h => ⟨?_, h.2⟩
    have hlt : i < m.table.length := List.mem_range.1 (hplaces.mem_iff.1 hi)
    exact fullPlace_eq_ok hchild hparents hnodup hlabels (hlen ▸ hlt) h.1
  have hnear : ∀ r < m.rowCount c, Weights.near settings.tolerances.sum (Weights.compensatedSum
      ((List.range (c.cardinalityAt m.child)).map fun s =>
        (m.table[r * c.cardinalityAt m.child + s]?).getD 0)) 1 := by
    intro r hr
    rw [← take_drop_eq_map (hlen ▸ Nat.mul_le_mul_right _ hr)]
    exact hrows _ (List.mem_map_of_mem (List.mem_range.2 hr))
  have htable : (List.range m.table.length).map (fun i => (m.table[i]?).getD 0) = m.table :=
    List.ext_getElem (by simp) (by simp +contextual)
  rw [fullTable_eq_map hcount hstates (hlen ▸ hplaces) hfull hnear, ← hlen, htable]

/-- **A block with an entry for each place of a table describes the table.** -/
theorem node_eq_ok (hchild : b.child = m.child) (hparents : b.parents = m.parents)
    (hnodup : ∀ v ∈ c.vars, v.states.Nodup) (hlabels : ∀ v ∈ c.vars, ∀ l ∈ v.states, IsLabel l)
    (hlen : m.table.length = m.rowCount c * c.cardinalityAt m.child)
    (hplaces : places.Perm (List.range m.table.length))
    (hentries : List.Forall₂ (fun e i =>
      e.key = NetworkLine.key (m.stateLabel c i) (m.parentLabels c i) ∧
        Line.probability e.line e.value = .ok ((m.table[i]?).getD 0)) b.entries places)
    (hrows : ∀ ps ∈ m.rows c,
      Weights.near settings.tolerances.sum (Weights.compensatedSum ps) 1) :
    b.node c settings = .ok m := by
  have hfull : ∀ e ∈ b.entries, e.isFull := by
    intro e he
    obtain ⟨i, -, hkey, -⟩ := exists_right_of_forall₂ hentries he
    exact BlockEntry.isFull_of_key hkey
  have htable := fullTable_eq_ok hchild hparents hnodup hlabels hlen hplaces hentries hrows
  refine node_eq_ok_iff.2 ⟨false, _, isShorthand_of_isFull hfull, htable, ?_⟩
  rw [hchild, hparents]

end Block

end JointProb
