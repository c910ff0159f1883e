/-
  JointProb — the rows of a table, by number and by states.

      Late <- (Sky, Rain)                      Sky has three states, Rain two
      (1 | Cloudy, 0): 0.3                     row 2 of 6: Sky=Cloudy, Rain=0

  A row has a number, which is made of the states of the parents in two places
  and taken apart again in a third one.

  * `BlockEntry.rowOfLabels` takes labels in from the first parent on, as the
    table is filled, `Node.row_eq_foldl` the states of an assignment, as the
    table is read; `Catalog.describeFrom` gives states off from the last parent
    on, as a row is reported;
  * `Block.CodesRow` says that a number and some states are the same row for all
    three, `Block.RowCodings` that each number has such states and no others,
    that reports are about the row that is wrong, and that entries are read where
    they were written; `Block.rowCodings`: so it is.
-/
import JointProb.Proofs.Spec.BlockOrder
import JointProb.Proofs.Spec.TruthTable
import JointProb.Proofs.WellFormed

namespace JointProb

open Text

variable {α : Type} {c : Catalog}

/-! ## From the first parent on -/

namespace BlockEntry

/-- The row that labels of variables lead to: each state moves those in front of
    it up by a place. -/
def rowOfLabels (c : Catalog) (e : BlockEntry) (ps : List Nat) (labels : List (List Char)) :
    Except (SpecError α) Nat :=
  (ps.zip labels).foldlM (fun row (p, label) =>
    (e.stateOf (c.variableAt p) label).map (row * (c.variableAt p).cardinality + ·)) 0

theorem foldlM_rowOfLabels {e : BlockEntry} {ps : List Nat} {labels : List (List Char)}
    (hlen : labels.length = ps.length) (row : Nat) :
    (ps.zip labels).foldlM (fun row (p, label) =>
        (e.stateOf (c.variableAt p) label : Except (SpecError α) Nat).map
          (row * (c.variableAt p).cardinality + ·)) row =
      (Block.parentStates c e ps labels).map fun states =>
        row * MixedRadix.size (ps.map c.cardinalityAt) +
          MixedRadix.value (ps.map c.cardinalityAt) states := by
  induction ps generalizing labels row with
  | nil =>
    simp [Block.parentStates, MixedRadix.size, MixedRadix.value, pure, Except.pure, Except.map]
  | cons p ps ih =>
    obtain ⟨label, labels, rfl⟩ := List.exists_cons_of_length_eq_add_one hlen
    rw [List.zip_cons_cons, List.foldlM_cons, Block.parentStates]
    cases hstate : (e.stateOf (c.variableAt p) label : Except (SpecError α) Nat) with
    | error err => simp only [hstate, Except.map, bind, Except.bind]
    | ok state =>
      dsimp only
      rw [hstate]
      refine (ih (by simpa using hlen) (row * (c.variableAt p).cardinality + state)).trans ?_
      cases (Block.parentStates c e ps labels : Except (SpecError α) (List Nat)) with
      | error err => rfl
      | ok states =>
        simp only [Except.map, List.map_cons, MixedRadix.size, MixedRadix.value,
          Catalog.cardinality_variableAt]
        congr 1
        ring

/-- Taken in from the first one on, labels lead to the number of their states. -/
theorem rowOfLabels_eq {e : BlockEntry} {ps : List Nat} {labels : List (List Char)}
    (hlen : labels.length = ps.length) :
    (e.rowOfLabels c ps labels : Except (SpecError α) Nat) =
      (Block.parentStates c e ps labels).map (MixedRadix.value (ps.map c.cardinalityAt)) := by
  rw [rowOfLabels, foldlM_rowOfLabels hlen]
  simp only [Nat.zero_mul, Nat.zero_add]

end BlockEntry

/-- The place of an entry, by the row that its labels lead to. -/
theorem Block.fullPlace_eq (b : Block) (e : BlockEntry) :
    (b.fullPlace c e : Except (SpecError α) Nat) = (do
      let v := b.variableIn c
      let (child, parents) ← e.labels
      if parents.length ≠ b.parents.length then
        .error (.malformed e.line (.parentCount v.name b.parents.length parents.length))
      else
        let state ← e.stateOf v child
        let row ← e.rowOfLabels c b.parents parents
        .ok (row * v.cardinality + state)) := by
  rw [fullPlace]
  refine congrArg _ (funext ?_)
  rintro ⟨child, parents⟩
  dsimp only
  split_ifs with hlen
  · rfl
  · rw [BlockEntry.rowOfLabels_eq (not_not.1 hlen)]
    refine congrArg _ (funext fun state => ?_)
    cases (parentStates c e b.parents parents : Except (SpecError α) (List Nat)) <;> rfl

/-- The row of an assignment, from the first parent on. -/
theorem Node.row_eq_foldl (m : Node α) (states : List Nat) : m.row c states =
    m.parents.foldl (fun row p => row * c.cardinalityAt p + (states[p]?).getD 0) 0 := by
  rw [row, radices, ← MixedRadix.forward_eq (by simp), MixedRadix.forward, List.zip_map',
    List.foldl_map]

/-! ## From the last parent on -/

/-- The state of a variable in words. -/
def Catalog.statement (c : Catalog) (p s : Nat) : String :=
  (c.variableAt p).name ++ "=" ++ ((c.variableAt p).states[s]?).getD "?"

theorem Catalog.statement_of_lt {p s : Nat} (h : s < c.cardinalityAt p) :
    c.statement p s = (c.variableAt p).name ++ "=" ++ c.labelAt p s := by
  rw [statement, getElem?_labelAt h]
  rfl

/-- Statements about the same variable tell its states apart. -/
theorem Catalog.statement_inj (hnodup : ∀ v ∈ c.vars, v.states.Nodup) {p s s' : Nat}
    (hs : s < c.cardinalityAt p) (hs' : s' < c.cardinalityAt p)
    (h : c.statement p s = c.statement p s') : s = s' := by
  rw [statement_of_lt hs, statement_of_lt hs', ← String.toList_inj] at h
  simp only [String.toList_append, List.append_cancel_left_eq, String.toList_inj] at h
  obtain ⟨w, hw, hlt⟩ := lt_cardinalityAt_iff.1 hs
  have hvar : c.variableAt p = w := by simp [variableAt, hw]
  have hget := getElem?_labelAt hs
  have hget' := getElem?_labelAt hs'
  rw [h, ← hget', hvar] at hget
  exact (List.getElem?_inj hlt (hnodup w (List.mem_of_getElem? hw))).1 hget

/-- A statement has no comma if no text has one. -/
theorem Catalog.notMem_statement
    (hcomma : ∀ v ∈ c.vars, ∀ text ∈ v.name :: v.states, ',' ∉ text.toList) (p s : Nat) :
    ',' ∉ (c.statement p s).toList := by
  have hall : ∀ text ∈ (c.variableAt p).name :: (c.variableAt p).states, ',' ∉ text.toList := by
    cases hv : c.vars[p]? with
    | none => simp [variableAt, hv]
    | some v => simpa [variableAt, hv] using hcomma v (List.mem_of_getElem? hv)
  obtain ⟨hname, hlabels⟩ := List.forall_mem_cons.1 hall
  have hlabel : ',' ∉ (((c.variableAt p).states[s]?).getD "?").toList := by
    cases hs : (c.variableAt p).states[s]? with
    | none => decide
    | some label => exact hlabels label (List.mem_of_getElem? hs)
  simpa [statement, or_assoc] using ⟨hname, hlabel⟩

/-- The states of some variables in a row, in words, given off from the last one
    on and put in order again. -/
def Catalog.describeFrom (c : Catalog) (ps : List Nat) (row : Nat) : List String :=
  (ps.reverse.foldl (fun (row, parts) p =>
    (row / c.cardinalityAt p, parts ++ [c.statement p (row % c.cardinalityAt p)]))
    (row, [])).2.reverse

theorem Catalog.foldr_describeFrom (ps : List Nat) (row : Nat) :
    ps.foldr (fun p (row, parts) =>
        (row / c.cardinalityAt p, parts ++ [c.statement p (row % c.cardinalityAt p)]))
        (row, ([] : List String)) =
      (row / MixedRadix.size (ps.map c.cardinalityAt),
        (List.zipWith c.statement ps
          (MixedRadix.digits (ps.map c.cardinalityAt) row)).reverse) := by
  induction ps with
  | nil => simp [MixedRadix.size]
  | cons p ps ih =>
    rw [List.foldr_cons, ih]
    simp only [List.map_cons, MixedRadix.size, MixedRadix.digits, List.zipWith_cons_cons,
      List.reverse_cons, Nat.div_div_eq_div_mul]
    rw [Nat.mul_comm]

/-- Given off from the last one on, the states of a row are its digits. -/
theorem Block.describeRow_eq (b : Block) (row : Nat) : b.describeRow c row =
    if b.parents.isEmpty then "no parents"
    else ", ".intercalate (c.describeFrom b.parents row) := by
  rw [Catalog.describeFrom, List.foldl_reverse, Catalog.foldr_describeFrom, List.reverse_reverse]
  rfl

/-! ## Assignments -/

namespace Catalog

/-- The states in an assignment are in range. -/
theorem getD_lt_of_below {a : List Nat} {p : Nat} (ha : MixedRadix.Below c.cardinalities a)
    (hp : p < c.vars.length) : (a[p]?).getD 0 < c.cardinalityAt p := by
  have hradix : p < c.cardinalities.length := by rwa [cardinalities, List.length_map]
  have hlt : p < a.length := ha.length_eq ▸ hradix
  have hdigit := (List.forall₂_iff_get.1 ha).2 p hlt hradix
  simpa [cardinalityAt, hlt, hradix] using hdigit

/-- Any states of different variables are those of a full assignment. -/
theorem exists_below_of_states (hvars : ∀ v ∈ c.vars, v.WellFormed) {ps states : List Nat}
    (hps : ∀ p ∈ ps, p < c.vars.length) (hnodup : ps.Nodup)
    (hstates : MixedRadix.Below (ps.map c.cardinalityAt) states) :
    ∃ a, MixedRadix.Below c.cardinalities a ∧ ps.map (fun p => (a[p]?).getD 0) = states := by
  obtain ⟨f, rfl⟩ := Assignment.exists_map_eq hnodup (by simpa using hstates.length_eq)
  have hrange := below_map_iff.1 hstates
  refine ⟨(List.range c.vars.length).map fun v => if v ∈ ps then f v else 0, ?_, ?_⟩
  · rw [← map_cardinalityAt_range, below_map_iff]
    intro v hv
    have hlt := List.mem_range.1 hv
    split_ifs with hmem
    · exact hrange v hmem
    · -- every variable has a first state
      have htwo := (hvars _ (List.getElem_mem hlt)).two_le_cardinality
      exact lt_cardinalityAt_iff.2 ⟨_, List.getElem?_eq_getElem hlt, Nat.zero_lt_of_lt htwo⟩
  · refine List.map_congr_left fun p hp => ?_
    simp [hps p hp, hp]

end Catalog

/-! ## Cells -/

namespace Block

variable [Scalar α] {b : Block} {cells : List (Nat × α)} {settings : Settings α}

/-- **A cell holds what an entry puts there.** -/
theorem lookup_eq_some_iff {place : BlockEntry → Except (SpecError α) Nat}
    (h : b.placed c place [] b.entries = .ok cells) {i : Nat} {p : α} :
    cells.lookup i = some p ↔
      ∃ e ∈ b.entries, place e = .ok i ∧ Line.probability e.line e.value = .ok p := by
  obtain ⟨xs, hxs, hcells, hnodup⟩ := exists_of_placed h
  rw [List.nil_append] at hxs
  subst hxs
  rw [lookup_eq_some_iff_mem (hnodup .nil)]
  refine mem_iff_of_forall₂ hcells fun e x y hx hy => ?_
  exact Prod.ext (Except.ok.inj (hx.1.symm.trans hy.1)) (Except.ok.inj (hx.2.symm.trans hy.2))

omit [Scalar α] in
/-- The states of the parents are in range. -/
theorem below_of_parentStates {e : BlockEntry} {labels : List (List Char)} {states : List Nat}
    (hlen : labels.length = b.parents.length)
    (h : (parentStates c e b.parents labels : Except (SpecError α) (List Nat)) = .ok states) :
    MixedRadix.Below (b.radices c) states := by
  have hparents : (b.parents.zip labels).map Prod.fst = b.parents :=
    List.map_fst_zip (Nat.le_of_eq hlen.symm)
  rw [MixedRadix.Below, radices, ← hparents, List.forall₂_map_right_iff, List.forall₂_map_right_iff]
  refine ((parentStates_eq_ok_iff.1 h).imp fun x d hd => ?_).flip
  rw [flip, ← Catalog.cardinality_variableAt]
  exact BlockEntry.lt_of_stateOf hd

omit [Scalar α] in
theorem lt_of_fullPlace {e : BlockEntry} {i : Nat}
    (h : (b.fullPlace c e : Except (SpecError α) Nat) = .ok i) :
    i < b.rowCount c * (b.variableIn c).cardinality := by
  obtain ⟨child, labels, s, ds, -, hlen, hs, hds, rfl⟩ := exists_of_fullPlace h
  exact Catalog.cell_lt (MixedRadix.value_lt_size (below_of_parentStates hlen hds))
    (BlockEntry.lt_of_stateOf hs)

/-- Where the entries cover the table, each cell is filled. -/
theorem exists_lookup (h : b.placed c (b.fullPlace c) [] b.entries = .ok cells)
    (hcoverage : cells.length = b.rowCount c * (b.variableIn c).cardinality) {i : Nat}
    (hi : i < b.rowCount c * (b.variableIn c).cardinality) : ∃ p, cells.lookup i = some p := by
  obtain ⟨xs, hxs, hcells, hnodup⟩ := exists_of_placed h
  rw [List.nil_append] at hxs
  subst hxs
  have hlt : ∀ x ∈ cells.map Prod.fst, x < b.rowCount c * (b.variableIn c).cardinality := by
    rw [List.forall_mem_map]
    intro x hx
    obtain ⟨e, -, hplace, -⟩ := exists_left_of_forall₂ hcells hx
    exact lt_of_fullPlace hplace
  have hperm := map_perm_range (hnodup .nil) (fun _ _ _ _ h => h) hlt
    (by rw [List.length_map, hcoverage])
  rw [List.map_id'] at hperm
  obtain ⟨⟨j, p⟩, hx, rfl⟩ := List.mem_map.1 (hperm.mem_iff.2 (List.mem_range.2 hi))
  exact ⟨p, (lookup_eq_some_iff_mem (hnodup .nil)).2 hx⟩

/-- The values that the entries of a block have for a row, state by state. -/
def HasRow (c : Catalog) (b : Block) (r : Nat) (ps : List α) : Prop :=
  List.Forall₂ (fun s p => ∃ e ∈ b.entries,
      (b.fullPlace c e : Except (SpecError α) Nat) = .ok (r * (b.variableIn c).cardinality + s) ∧
        Line.probability e.line e.value = .ok p)
    (List.range (b.variableIn c).cardinality) ps

theorem hasRow_of_placed (h : b.placed c (b.fullPlace c) [] b.entries = .ok cells)
    (hcoverage : cells.length = b.rowCount c * (b.variableIn c).cardinality) {r : Nat}
    (hr : r < b.rowCount c) :
    b.HasRow c r ((List.range (b.variableIn c).cardinality).map fun s =>
      (cells.lookup (r * (b.variableIn c).cardinality + s)).getD 0) := by
  rw [HasRow, List.forall₂_map_right_iff, List.forall₂_same]
  intro s hs
  obtain ⟨p, hp⟩ := exists_lookup h hcoverage (Catalog.cell_lt hr (List.mem_range.1 hs))
  rw [hp]
  exact (lookup_eq_some_iff h).1 hp

/-- An entry of the block is in the table at its place. -/
theorem getElem?_fullTable {table : List α} (h : b.fullTable c settings = .ok table)
    {e : BlockEntry} (he : e ∈ b.entries) {i : Nat} {p : α}
    (hplace : (b.fullPlace c e : Except (SpecError α) Nat) = .ok i)
    (hp : Line.probability e.line e.value = .ok p) : table[i]? = some p := by
  obtain ⟨cells, hcells, -, -, rfl⟩ := fullTable_eq_ok_iff.1 h
  have hlookup := (lookup_eq_some_iff hcells).2 ⟨e, he, hplace, hp⟩
  rw [cellRows, flatten_map_rows fun i => (cells.lookup i).getD 0]
  simp [lt_of_fullPlace hplace, hlookup]

/-! ## Reports on rows -/

/-- A fault that is not about the sum of a row. -/
def NoRowSum (e : SpecError α) : Prop := ∀ name context sum, e ≠ .rowSum name context sum

omit [Scalar α] in
theorem ends_stateOf (e : BlockEntry) (v : Variable) (label : List Char) :
    Ends (NoRowSum (α := α)) (fun _ => True) (e.stateOf v label) := by
  rw [BlockEntry.stateOf]
  split
  · trivial
  · rintro name context sum ⟨⟩

omit [Scalar α] in
theorem ends_parentStates (e : BlockEntry) (ps : List Nat) (labels : List (List Char)) :
    Ends (NoRowSum (α := α)) (fun _ => True) (parentStates c e ps labels) := by
  induction ps generalizing labels with
  | nil => cases labels <;> trivial
  | cons p ps ih =>
    cases labels with
    | nil => trivial
    | cons label labels =>
      have hstate := ends_stateOf (α := α) e (c.variableAt p) label
      rw [parentStates]
      cases h : (e.stateOf (c.variableAt p) label : Except (SpecError α) Nat) with
      | error err =>
        rw [h] at hstate
        exact hstate
      | ok state => exact (ih labels).map fun _ _ => trivial

omit [Scalar α] in
theorem ends_fullPlace (e : BlockEntry) :
    Ends (NoRowSum (α := α)) (fun _ => True) (b.fullPlace c e) := by
  have hlabels : Ends (NoRowSum (α := α)) (fun _ => True) e.labels := by
    rw [BlockEntry.labels]
    split
    · rintro name context sum ⟨⟩
    · split <;> trivial
  rw [fullPlace]
  refine hlabels.bind ?_
  rintro ⟨child, parents⟩ -
  dsimp only
  split_ifs
  · rintro name context sum ⟨⟩
  · exact (ends_stateOf e _ child).bind fun state _ =>
      (ends_parentStates e b.parents parents).bind fun _ _ => trivial

theorem ends_placed {place : BlockEntry → Except (SpecError α) Nat}
    (hplace : ∀ e, Ends NoRowSum (fun _ => True) (place e)) (cells : List (Nat × α))
    (entries : List BlockEntry) :
    Ends NoRowSum (fun _ => True) (b.placed c place cells entries) := by
  induction entries generalizing cells with
  | nil => trivial
  | cons e es ih =>
    have hplace := hplace e
    rw [placed]
    cases h : place e with
    | error err =>
      rw [h] at hplace
      exact hplace
    | ok i =>
      cases hp : (Line.probability e.line e.value : Except (SpecError α) α) with
      | error err =>
        simp only [Line.probability] at hp
        split at hp
        · split_ifs at hp
          cases hp
          rintro name context sum ⟨⟩
        · cases hp
          rintro name context sum ⟨⟩
      | ok p =>
        dsimp only
        split_ifs
        · rintro name context sum ⟨⟩
        · exact ih _

/-- The first row with another sum than one is reported. -/
theorem checkRows_eq_error {tolerance : α} {row : Nat} {rows : List (List α)} {e : SpecError α}
    (h : b.checkRows c tolerance row rows = .error e) :
    ∃ front ps back, rows = front ++ ps :: back ∧
      (∀ qs ∈ front, Weights.near tolerance (Weights.compensatedSum qs) 1) ∧
      ¬ Weights.near tolerance (Weights.compensatedSum ps) 1 ∧
      e = .rowSum (b.variableIn c).name (b.describeRow c (row + front.length))
        (Weights.compensatedSum ps) := by
  induction rows generalizing row with
  | nil => cases h
  | cons ps rows ih =>
    rw [checkRows] at h
    split_ifs at h with hnear
    · obtain ⟨front, qs, back, rfl, hfront, hqs, rfl⟩ := ih h
      refine ⟨ps :: front, qs, back, rfl, List.forall_mem_cons.2 ⟨hnear, hfront⟩, hqs, ?_⟩
      rw [List.length_cons, Nat.add_assoc, Nat.add_comm 1]
    · cases h
      exact ⟨[], ps, rows, rfl, by simp, hnear, rfl⟩

/-- **A report on a row is about the first one that is wrong.** -/
theorem exists_of_rowSum {name context : String} {sum : α}
    (h : b.fullTable c settings = .error (.rowSum name context sum)) :
    ∃ r < b.rowCount c, ∃ ps : List α, b.HasRow c r ps ∧ name = (b.variableIn c).name ∧
      context = b.describeRow c r ∧ sum = Weights.compensatedSum ps ∧
      ¬ Weights.near settings.tolerances.sum sum 1 ∧
      ∀ r' < r, ∃ ps' : List α, b.HasRow c r' ps' ∧
        Weights.near settings.tolerances.sum (Weights.compensatedSum ps') 1 := by
  have hplaced : Ends (NoRowSum (α := α)) (fun _ => True)
      (b.placed c (b.fullPlace c) [] b.entries) := ends_placed ends_fullPlace [] b.entries
  simp only [fullTable, bind_eq_error] at h
  obtain h | ⟨cells, hcells, h | ⟨_, hcoverage, h | ⟨_, -, h⟩⟩⟩ := h
  · rw [h] at hplaced
    exact absurd rfl (hplaced name context sum)
  · rw [checkCoverage] at h
    split_ifs at h
    cases h
  · have hcovered := checkCoverage_eq_ok_iff.1 hcoverage
    obtain ⟨front, ps, back, hsplit, hfront, hps, he⟩ := checkRows_eq_error h
    have hrow (i : Nat) (qs : List α) (hi : (front ++ ps :: back)[i]? = some qs) :
        i < b.rowCount c ∧ b.HasRow c i qs := by
      rw [← hsplit, List.getElem?_map, Option.map_eq_some_iff] at hi
      obtain ⟨r, hr, rfl⟩ := hi
      obtain ⟨hlt, hget⟩ := List.getElem?_eq_some_iff.1 hr
      rw [List.getElem_range] at hget
      subst hget
      rw [List.length_range] at hlt
      exact ⟨hlt, hasRow_of_placed hcells hcovered hlt⟩
    obtain ⟨hlt, hhas⟩ := hrow front.length ps (by simp)
    cases he
    refine ⟨front.length, hlt, ps, hhas, rfl, by rw [Nat.zero_add], rfl, hps, fun r' hr' => ?_⟩
    have hget : (front ++ ps :: back)[r']? = some front[r'] := by
      rw [List.getElem?_append_left hr', List.getElem?_eq_getElem hr']
    exact ⟨_, (hrow _ _ hget).2, hfront _ (List.getElem_mem hr')⟩
  · cases h

/-! ## Rows -/

/-- A number and states of the parents that are the same row. -/
structure CodesRow (α : Type) (c : Catalog) (b : Block) (r : Nat) (states : List Nat) :
    Prop where
  below : MixedRadix.Below (b.radices c) states
  /-- A report on the row has the labels of the states, parent by parent. -/
  describeRow_eq : b.describeRow c r = if b.parents = [] then "no parents"
    else ", ".intercalate
      (List.zipWith (fun p s => (c.variableAt p).name ++ "=" ++ c.labelAt p s) b.parents states)
  /-- The labels lead to the row, -/
  rowOfLabels (e : BlockEntry) : (e.rowOfLabels c b.parents
    ((List.zipWith c.labelAt b.parents states).map String.toList) : Except (SpecError α) Nat) =
      .ok r
  /-- and no labels of other states do. -/
  rowOfLabels_eq_iff {e : BlockEntry} {labels : List (List Char)} {ds : List Nat}
    (hlen : labels.length = b.parents.length)
    (h : (parentStates c e b.parents labels : Except (SpecError α) (List Nat)) = .ok ds) :
    (e.rowOfLabels c b.parents labels : Except (SpecError α) Nat) = .ok r ↔ ds = states
  /-- Assignments with these states are looked up in the row, and no others. -/
  row_eq_iff {m : Node α} (hm : m.parents = b.parents) {a : List Nat}
    (ha : MixedRadix.Below c.cardinalities a) :
    m.row c a = r ↔ b.parents.map (fun p => (a[p]?).getD 0) = states
  exists_assignment : ∃ a, MixedRadix.Below c.cardinalities a ∧
    b.parents.map (fun p => (a[p]?).getD 0) = states

/-- What is said about the rows of the table of a block. -/
structure RowCodings (α : Type) [Scalar α] (c : Catalog) (b : Block) : Prop where
  /-- A cell is filled in the row that labels lead to from the first parent on. -/
  fullPlace_of_labels {e : BlockEntry} {child : List Char} {labels : List (List Char)} {s : Nat}
    (hlabels : (e.labels : Except (SpecError α) _) = .ok (child, labels))
    (hlen : labels.length = b.parents.length)
    (hs : (e.stateOf (b.variableIn c) child : Except (SpecError α) Nat) = .ok s) :
    (b.fullPlace c e : Except (SpecError α) Nat) =
      (e.rowOfLabels c b.parents labels).map (· * (b.variableIn c).cardinality + s)
  /-- It is looked up in the row that states lead to from the first parent on. -/
  row_eq_foldl {m : Node α} (hm : m.parents = b.parents) (a : List Nat) : m.row c a =
    b.parents.foldl (fun row p => row * c.cardinalityAt p + (a[p]?).getD 0) 0
  /-- A report gives the states off from the last parent on. -/
  describeRow_eq (r : Nat) : b.describeRow c r =
    if b.parents.isEmpty then "no parents" else ", ".intercalate (c.describeFrom b.parents r)
  /-- Each row has states, and no others. -/
  existsUnique_states {r : Nat} (hr : r < b.rowCount c) : ∃! states, CodesRow α c b r states
  /-- Without commas in the labels, rows are told apart by reports on them. -/
  describeRow_inj (hcomma : ∀ v ∈ c.vars, ∀ text ∈ v.name :: v.states, ',' ∉ text.toList)
    {r r' : Nat} (hr : r < b.rowCount c) (hr' : r' < b.rowCount c)
    (h : b.describeRow c r = b.describeRow c r') : r = r'
  /-- A report is about the first row whose entries have another sum than one. -/
  rowSum {settings : Settings α} {name context : String} {sum : α}
    (h : b.fullTable c settings = .error (.rowSum name context sum)) :
    ∃ r < b.rowCount c, ∃ ps : List α, b.HasRow c r ps ∧ name = (b.variableIn c).name ∧
      context = b.describeRow c r ∧ sum = Weights.compensatedSum ps ∧
      ¬ Weights.near settings.tolerances.sum sum 1 ∧
      ∀ r' < r, ∃ ps' : List α, b.HasRow c r' ps' ∧
        Weights.near settings.tolerances.sum (Weights.compensatedSum ps') 1
  /-- What is written for a state of the child and states of the parents is read
      for every assignment that has these. -/
  entry {settings : Settings α} {m : Node α} (hnode : b.node c settings = .ok m)
    (hfull : (b.isShorthand c : Except (SpecError α) Bool) = .ok false) {e : BlockEntry}
    (he : e ∈ b.entries) {child : List Char} {labels : List (List Char)} {s : Nat}
    {states : List Nat} {p : α}
    (hlabels : (e.labels : Except (SpecError α) _) = .ok (child, labels))
    (hs : (e.stateOf (b.variableIn c) child : Except (SpecError α) Nat) = .ok s)
    (hstates : (parentStates c e b.parents labels : Except (SpecError α) (List Nat)) = .ok states)
    (hp : Line.probability e.line e.value = .ok p) {a : List Nat}
    (ha : MixedRadix.Below c.cardinalities a) (hchild : (a[b.child]?).getD 0 = s)
    (hparents : b.parents.map (fun p => (a[p]?).getD 0) = states) : m.entry c a = p

/-! ## All of it -/

omit [Scalar α] in
/-- Only the digits of a row lead to it. -/
theorem value_eq_iff {r : Nat} (hr : r < b.rowCount c) {ds : List Nat}
    (hds : MixedRadix.Below (b.radices c) ds) :
    MixedRadix.value (b.radices c) ds = r ↔ ds = MixedRadix.digits (b.radices c) r := by
  constructor
  · rintro rfl
    exact (MixedRadix.digits_value hds).symm
  · rintro rfl
    exact MixedRadix.value_digits hr

omit [Scalar α] in
/-- **The digits of the number of a row are its states.** -/
theorem codesRow (hvars : ∀ v ∈ c.vars, v.WellFormed)
    (hparents : ∀ p ∈ b.parents, p < c.vars.length)
    (hnodup : b.parents.Nodup) {r : Nat} (hr : r < b.rowCount c) :
    CodesRow α c b r (MixedRadix.digits (b.radices c) r) := by
  have hbelow := MixedRadix.below_digits hr
  have hstates : ∀ v ∈ c.vars, v.states.Nodup := fun v hv => (hvars v hv).nodup_states
  have hrange : List.Forall₂ (fun p d => d < c.cardinalityAt p) b.parents
      (MixedRadix.digits (b.radices c) r) := by
    rw [MixedRadix.Below, radices, List.forall₂_map_right_iff] at hbelow
    exact hbelow.flip
  refine ⟨hbelow, ?_, fun e => ?_, fun hlen h => ?_, fun hm a ha => ?_, ?_⟩
  · have hwords : List.zipWith c.statement b.parents (MixedRadix.digits (b.radices c) r) = _ :=
      List.zipWith_congr _ _ _ _ (hrange.imp fun p s hs => Catalog.statement_of_lt hs)
    rw [← hwords]
    simp only [describeRow, List.isEmpty_iff]
    rfl
  · have hlen : ((List.zipWith c.labelAt b.parents
        (MixedRadix.digits (b.radices c) r)).map String.toList).length = b.parents.length := by
      simp [MixedRadix.length_digits, radices]
    rw [BlockEntry.rowOfLabels_eq hlen, parentStates_eq_ok hstates hbelow e]
    exact congrArg _ (MixedRadix.value_digits hr)
  · rw [BlockEntry.rowOfLabels_eq hlen, h]
    exact (Except.ok.injEq ..).to_iff.trans (value_eq_iff hr (below_of_parentStates hlen h))
  · have hmem : MixedRadix.Below (b.radices c) (b.parents.map fun p => (a[p]?).getD 0) :=
      Catalog.below_map_iff.2 fun p hp => Catalog.getD_lt_of_below ha (hparents p hp)
    rw [Node.row, Node.radices, hm]
    exact value_eq_iff hr hmem
  · exact Catalog.exists_below_of_states hvars hparents hnodup hbelow

omit [Scalar α] in
/-- A row has no other states: an assignment with these would be looked up in it
    as well. -/
theorem CodesRow.unique {r : Nat} {states ds : List Nat} (h : CodesRow α c b r states)
    (h' : CodesRow α c b r ds) : states = ds := by
  obtain ⟨a, ha, hstates⟩ := h.exists_assignment
  have hrow := (h.row_eq_iff (m := ⟨b.child, b.parents, []⟩) rfl ha).2 hstates
  rw [← hstates]
  exact (h'.row_eq_iff rfl ha).1 hrow

omit [Scalar α] in
/-- Statements about variables tell their states apart. -/
theorem eq_of_statements (hstates : ∀ v ∈ c.vars, v.states.Nodup) {ps ds es : List Nat}
    (hds : MixedRadix.Below (ps.map c.cardinalityAt) ds)
    (hes : MixedRadix.Below (ps.map c.cardinalityAt) es)
    (h : List.zipWith c.statement ps ds = List.zipWith c.statement ps es) : ds = es := by
  induction ps generalizing ds es with
  | nil => rw [MixedRadix.below_nil.1 hds, MixedRadix.below_nil.1 hes]
  | cons p ps ih =>
    obtain ⟨d, ds, hd, hds', rfl⟩ := MixedRadix.below_cons.1 hds
    obtain ⟨e, es, he, hes', rfl⟩ := MixedRadix.below_cons.1 hes
    obtain ⟨hhead, htail⟩ := List.cons.inj h
    rw [Catalog.statement_inj hstates hd he hhead, ih hds' hes' htail]

omit [Scalar α] in
/-- Reports tell rows apart if no text in them has a comma. -/
theorem describeRow_injective (hvars : ∀ v ∈ c.vars, v.WellFormed)
    (hcomma : ∀ v ∈ c.vars, ∀ text ∈ v.name :: v.states, ',' ∉ text.toList) {r r' : Nat}
    (hr : r < b.rowCount c) (hr' : r' < b.rowCount c) (h : b.describeRow c r = b.describeRow c r') :
    r = r' := by
  by_cases hroot : b.parents = []
  · have hone : b.rowCount c = 1 := by rw [rowCount, radices, hroot]; rfl
    omega
  · have hbelow := MixedRadix.below_digits hr
    have hbelow' := MixedRadix.below_digits hr'
    have hwords (row : Nat) : (b.describeRow c row).toList = commaList
        ((List.zipWith c.statement b.parents (MixedRadix.digits (b.radices c) row)).map
          String.toList) := by
      rw [describeRow, if_neg (by simpa using hroot), String.toList_intercalate]
      rfl
    have hmarks (ds : List Nat) :
        ∀ text ∈ (List.zipWith c.statement b.parents ds).map String.toList, ',' ∉ text := by
      rw [List.forall_mem_map]
      intro text htext
      obtain ⟨i, hi, rfl⟩ := List.getElem_of_mem htext
      rw [List.getElem_zipWith]
      exact Catalog.notMem_statement hcomma _ _
    have hne (row : Nat) : (List.zipWith c.statement b.parents
        (MixedRadix.digits (b.radices c) row)).map String.toList ≠ [] := by
      rw [← List.length_pos_iff]
      simpa [MixedRadix.length_digits, radices] using List.length_pos_iff.2 hroot
    rw [← String.toList_inj, hwords, hwords] at h
    have hlists := commaList_inj (hne r) (hne r') (hmarks _) (hmarks _) h
    rw [List.map_inj_right fun _ _ => String.toList_inj.1] at hlists
    rw [← MixedRadix.value_digits hr, ← MixedRadix.value_digits hr']
    have hnodup : ∀ v ∈ c.vars, v.states.Nodup := fun v hv => (hvars v hv).nodup_states
    exact congrArg _ (eq_of_statements hnodup hbelow hbelow' hlists)

/-- **The rows of a table are coded alike** where they are filled, read and
    reported. -/
theorem rowCodings (hvars : ∀ v ∈ c.vars, v.WellFormed)
    (hparents : ∀ p ∈ b.parents, p < c.vars.length) (hnodup : b.parents.Nodup) :
    RowCodings α c b where
  fullPlace_of_labels {e child labels s} hlabels hlen hs := by
    rw [fullPlace_eq, hlabels]
    simp only [bind, Except.bind, hlen, ne_eq, not_true_eq_false, if_false, hs]
    cases (e.rowOfLabels c b.parents labels : Except (SpecError α) Nat) <;> rfl
  row_eq_foldl hm a := by rw [Node.row_eq_foldl, hm]
  describeRow_eq := b.describeRow_eq
  existsUnique_states hr := ⟨_, codesRow hvars hparents hnodup hr,
    fun _ h => h.unique (codesRow hvars hparents hnodup hr)⟩
  describeRow_inj hcomma _ _ hr hr' h := describeRow_injective hvars hcomma hr hr' h
  rowSum h := exists_of_rowSum h
  entry {settings m} hnode hfull {e} he {child labels s states p} hlabels hs hstates hp {a} ha
      hchild hparents := by
    obtain ⟨shorthand, table, hshorthand, htable, rfl⟩ := node_eq_ok_iff.1 hnode
    rw [hfull] at hshorthand
    cases hshorthand
    obtain ⟨cells, hcells, -⟩ := fullTable_eq_ok_iff.1 htable
    obtain ⟨xs, -, hplaced, -⟩ := exists_of_placed hcells
    obtain ⟨⟨i, _⟩, -, hplace, -⟩ := exists_right_of_forall₂ hplaced he
    have hget := getElem?_fullTable htable he hplace hp
    obtain ⟨child', labels', s', ds, hlabels', -, hs', hds, hi⟩ := exists_of_fullPlace hplace
    cases hlabels.symm.trans hlabels'
    cases hs.symm.trans hs'
    cases hstates.symm.trans hds
    rw [variableIn, Catalog.cardinality_variableAt] at hi
    have hcell : Node.row c ⟨b.child, b.parents, table⟩ a * c.cardinalityAt b.child +
        (a[b.child]?).getD 0 = i := by
      rw [Node.row, Node.radices, hparents, hchild]
      exact hi
    rw [Node.entry, hcell, hget, Option.getD_some]

/-- Parents with three and with two states; one row is written with the sum
    eleven tenths. -/
theorem rowCodings_sky :
    let c : Catalog :=
      .of [⟨"Sky", ["Clear", "Cloudy", "Dark"]⟩, .boolean "Rain", .boolean "Late"]
    let entry : String → String → BlockEntry := fun key value => ⟨7, key.toList, value.toList⟩
    let b : Block := ⟨2, [0, 1], 6,
      [entry "(0 | Clear, 0)" "0.9", entry "(1 | Clear, 0)" "0.1",
        entry "(0 | Clear, 1)" "0.8", entry "(1 | Clear, 1)" "0.2",
        entry "(0 | Cloudy, 0)" "0.7", entry "(1 | Cloudy, 0)" "0.3",
        entry "(0 | Cloudy, 1)" "0.6", entry "(1 | Cloudy, 1)" "0.4",
        entry "(1 | Dark, 0)" "0.5", entry "(0 | Dark, 0)" "0.6",
        entry "(0 | Dark, 1)" "0.3", entry "(1 | Dark, 1)" "0.7"]⟩
    (∀ v ∈ c.vars, v.WellFormed) ∧ (∀ p ∈ b.parents, p < c.vars.length) ∧ b.parents.Nodup ∧
      b.fullTable c (.default : Settings ℚ) =
        .error (.rowSum "Late" "Sky=Dark, Rain=0" (11 / 10)) ∧
      RowCodings ℚ c b ∧ CodesRow ℚ c b 4 [2, 0] ∧
      ∃ ps : List ℚ, b.HasRow c 4 ps ∧ Weights.compensatedSum ps = 11 / 10 := by
  intro c entry b
  have hvars : ∀ v ∈ c.vars, v.WellFormed := by
    have hdecides : ∀ v ∈ c.vars, v.states.Nodup ∧ 2 ≤ v.cardinality := by decide
    exact fun v hv => ⟨(hdecides v hv).1, (hdecides v hv).2⟩
  have hparents : ∀ p ∈ b.parents, p < c.vars.length := by decide
  have hnodup : b.parents.Nodup := by decide
  have htable : b.fullTable c (.default : Settings ℚ) =
      .error (.rowSum "Late" "Sky=Dark, Rain=0" (11 / 10)) := by
    have hfault : (match b.fullTable c (.default : Settings ℚ) with
      | .error e => some e
      | .ok _ => none) = some (.rowSum "Late" "Sky=Dark, Rain=0" (11 / 10)) := by decide +kernel
    split at hfault
    · next h => rw [h, Option.some.inj hfault]
    · cases hfault
  have hcodings : RowCodings ℚ c b := rowCodings hvars hparents hnodup
  have hlt : 4 < b.rowCount c := by decide
  have hdigits : MixedRadix.digits (b.radices c) 4 = [2, 0] := by decide
  have hcodes : CodesRow ℚ c b 4 [2, 0] := hdigits ▸ codesRow hvars hparents hnodup hlt
  obtain ⟨r, hr, ps, hps, -, hcontext, hsum, -⟩ := hcodings.rowSum htable
  have hfour : b.describeRow c r = b.describeRow c 4 := by
    rw [← hcontext]
    decide +kernel
  obtain rfl := hcodings.describeRow_inj (by decide) hr hlt hfour
  exact ⟨hvars, hparents, hnodup, htable, hcodings, hcodes, ps, hps, hsum.symm⟩

end Block

end JointProb
