/-
  JointProb — what blocks of conditional probabilities describe.

  * `Block.isShorthand_eq_ok_iff`: when entries are in shorthand;
  * `Block.exists_of_placed`: which cells the entries of a block fill;
  * `Block.fullTable_eq_ok_iff` and `Block.shorthandTable_eq_ok_iff`: when
    these make a table, and which one;
  * `Block.isProbability_placed`: the entries of a block are probabilities;
  * `Block.isProbability_node`: so are all entries of the table that is made
    of them, in either notation.
-/
import JointProb.Proofs.Spec.Line
import JointProb.Proofs.Result
import JointProb.Spec.Block

namespace JointProb.Block

variable {c : Catalog} {b : Block}

section

variable {α : Type}

theorem checkCoverage_eq_ok_iff {expected found : Nat} :
    (b.checkCoverage c expected found : Except (SpecError α) Unit) = .ok () ↔
      found = expected := by
  rw [checkCoverage]
  split_ifs with h <;> simp [h]

/-- Two states whose labels mean false and true. -/
theorem defaultsIn_eq_ok_iff {v : Variable} {states : DefaultStates} :
    (b.defaultsIn c v : Except (SpecError α) DefaultStates) = .ok states ↔
      v.isBinary ∧ v.defaults? = some states := by
  cases hbinary : v.isBinary <;> cases hdefaults : v.defaults? <;>
    simp [defaultsIn, hbinary, hdefaults]

/-! ## Notations -/

/-- A single entry without parents may be in shorthand. -/
theorem isShorthand_single (hroot : b.parents = []) {e : BlockEntry} (hentries : b.entries = [e]) :
    (b.isShorthand c : Except (SpecError α) Bool) =
      .ok ((e.key == ['0'] || e.key == ['1']) && (b.variableIn c).isBinary) := by
  rw [isShorthand, hroot, hentries]

/-- Other entries without parents are not. -/
theorem isShorthand_root (hroot : b.parents = []) (hlength : b.entries.length ≠ 1) :
    (b.isShorthand c : Except (SpecError α) Bool) = .ok false := by
  rw [isShorthand]
  split
  · next hentries =>
    rw [hentries] at hlength
    exact absurd rfl hlength
  · rfl
  · rfl
  · next hparents _ =>
    rw [hroot] at hparents
    cases hparents

/-- With parents, all keys tell the notation. -/
theorem isShorthand_eq_ok_iff (hne : b.parents ≠ []) {shorthand : Bool} :
    (b.isShorthand c : Except (SpecError α) Bool) = .ok shorthand ↔
      (∀ e ∈ b.entries, e.isFull = !shorthand) ∧ (b.entries = [] → shorthand = false) := by
  obtain ⟨p, ps, hparents⟩ := List.exists_cons_of_ne_nil hne
  cases hentries : b.entries with
  | nil => simp [isShorthand, hparents, hentries, eq_comm]
  | cons e es =>
    simp only [isShorthand, hparents, hentries, List.forall_mem_cons, reduceCtorEq,
      false_implies, and_true]
    split
    · next mixed hmixed =>
      refine iff_of_false (by simp) fun h => ?_
      have hfound := List.find?_some hmixed
      rw [h.1, h.2 mixed (List.mem_of_find?_eq_some hmixed)] at hfound
      simp at hfound
    · next hnone =>
      have hall : ∀ x ∈ es, x.isFull = e.isFull := by simpa using hnone
      constructor
      · intro h
        cases h
        simpa using hall
      · intro h
        rw [h.1, Bool.not_not]

variable [Scalar α]

/-! ## Entries -/

/-- **Entries fill a cell each**, and no cell twice. -/
theorem exists_of_placed {place : BlockEntry → Except (SpecError α) Nat}
    {cells cells' : List (Nat × α)} {entries : List BlockEntry}
    (h : b.placed c place cells entries = .ok cells') : ∃ xs, cells' = cells ++ xs ∧
      List.Forall₂ (fun e x => place e = .ok x.1 ∧ Line.probability e.line e.value = .ok x.2)
        entries xs ∧ ((cells.map Prod.fst).Nodup → (cells'.map Prod.fst).Nodup) := by
  induction entries generalizing cells with
  | nil =>
    cases h
    exact ⟨[], (List.append_nil _).symm, .nil, id⟩
  | cons e es ih =>
    rw [placed] at h
    split at h
    · cases h
    next i hi =>
    split at h
    · cases h
    next p hp =>
    split_ifs at h with htaken
    obtain ⟨xs, hcells', hxs, hnodup⟩ := ih h
    refine ⟨(i, p) :: xs, by simpa using hcells', .cons ⟨hi, hp⟩ hxs, fun hcells => hnodup ?_⟩
    rw [List.map_append, List.map_singleton, List.nodup_append_comm, List.singleton_append,
      List.nodup_cons]
    refine ⟨fun hmem => htaken ?_, hcells⟩
    obtain ⟨x, hx, heq⟩ := List.mem_map.1 hmem
    exact List.any_eq_true.2 ⟨x, hx, beq_iff_eq.2 heq⟩

/-! ## What makes a table -/

/-- What cells hold, row by row. -/
def cellRows (cells : List (Nat × α)) (rows k : Nat) : List (List α) :=
  (List.range rows).map fun r => (List.range k).map fun s => (cells.lookup (r * k + s)).getD 0

/-- Rows are accepted that have the sum one each, within the tolerance. -/
theorem checkRows_eq_ok_iff {tolerance : α} {row : Nat} {rows : List (List α)} :
    b.checkRows c tolerance row rows = .ok () ↔
      ∀ ps ∈ rows, Weights.near tolerance (Weights.compensatedSum ps) 1 := by
  induction rows generalizing row with
  | nil => simp [checkRows]
  | cons ps rows ih =>
    simp only [checkRows, List.forall_mem_cons]
    split_ifs with hnear
    · rw [ih, and_iff_right hnear]
    · exact iff_of_false (by simp) fun h => hnear h.1

/-- **What makes a table in full notation**: an entry for each state in each
    row, and rows with the sum one. -/
theorem fullTable_eq_ok_iff {settings : Settings α} {table : List α} :
    b.fullTable c settings = .ok table ↔ ∃ cells,
      b.placed c (b.fullPlace c) [] b.entries = .ok cells ∧
      cells.length = b.rowCount c * (b.variableIn c).cardinality ∧
      (∀ ps ∈ cellRows cells (b.rowCount c) (b.variableIn c).cardinality,
        Weights.near settings.tolerances.sum (Weights.compensatedSum ps) 1) ∧
      (cellRows cells (b.rowCount c) (b.variableIn c).cardinality).flatten = table := by
  simp only [fullTable, bind_eq_ok]
  constructor
  · rintro ⟨cells, hcells, _, hcoverage, _, hrows, h⟩
    exact ⟨cells, hcells, checkCoverage_eq_ok_iff.1 hcoverage, checkRows_eq_ok_iff.1 hrows,
      Except.ok.inj h⟩
  · rintro ⟨cells, hcells, hcoverage, hrows, rfl⟩
    exact ⟨cells, hcells, (), checkCoverage_eq_ok_iff.2 hcoverage, (),
      checkRows_eq_ok_iff.2 hrows, rfl⟩

/-- **What makes a table in shorthand**, with parents: states that mean false
    and true everywhere, and an entry for each row. -/
theorem shorthandTable_eq_ok_iff (hne : b.parents ≠ []) {table : List α} :
    b.shorthandTable c = .ok table ↔ ∃ own parents cells,
      ((b.variableIn c).isBinary ∧ (b.variableIn c).defaults? = some own) ∧
      List.Forall₂ (fun p d => (c.variableAt p).isBinary ∧ (c.variableAt p).defaults? = some d)
        b.parents parents ∧
      b.placed c (b.bitsRow c parents) [] b.entries = .ok cells ∧
      cells.length = b.rowCount c ∧
      ((List.range (b.rowCount c)).flatMap fun r =>
        pair own (1 - (cells.lookup r).getD 0) ((cells.lookup r).getD 0)) = table := by
  simp only [shorthandTable, bind_eq_ok, mapM_eq_ok, defaultsIn_eq_ok_iff]
  constructor
  · rintro ⟨own, hown, parents, hparents, h⟩
    split at h
    · next hnil _ => exact absurd hnil hne
    · obtain ⟨cells, hcells, h⟩ := bind_eq_ok.1 h
      obtain ⟨_, hcoverage, h⟩ := bind_eq_ok.1 h
      exact ⟨own, parents, cells, hown, hparents, hcells, checkCoverage_eq_ok_iff.1 hcoverage,
        Except.ok.inj h⟩
  · rintro ⟨own, parents, cells, hown, hparents, hcells, hcoverage, rfl⟩
    refine ⟨own, hown, parents, hparents, ?_⟩
    split
    · next hnil _ => exact absurd hnil hne
    · exact bind_eq_ok.2 ⟨cells, hcells,
        bind_eq_ok.2 ⟨(), checkCoverage_eq_ok_iff.2 hcoverage, rfl⟩⟩

/-- **What makes a node**: a notation, and a table in this notation. -/
theorem node_eq_ok_iff {settings : Settings α} {m : Node α} :
    b.node c settings = .ok m ↔ ∃ shorthand table,
      b.isShorthand c = (.ok shorthand : Except (SpecError α) Bool) ∧
      (if shorthand then b.shorthandTable c else b.fullTable c settings) = .ok table ∧
      ⟨b.child, b.parents, table⟩ = m := by
  simp only [node, bind_eq_ok]
  constructor
  · rintro ⟨shorthand, hshorthand, h⟩
    cases shorthand <;> obtain ⟨table, htable, h⟩ := bind_eq_ok.1 h <;>
      exact ⟨_, table, hshorthand, htable, Except.ok.inj h⟩
  · rintro ⟨shorthand, table, hshorthand, htable, rfl⟩
    refine ⟨shorthand, hshorthand, ?_⟩
    cases shorthand <;> exact bind_eq_ok.2 ⟨table, htable, rfl⟩

end

/-- Cells after cells of probabilities are cells of probabilities. -/
theorem isProbability_placed {place : BlockEntry → Except (SpecError ℚ) Nat}
    {cells cells' : List (Nat × ℚ)} {entries : List BlockEntry}
    (hcells : ∀ x ∈ cells, IsProbability x.2)
    (h : b.placed c place cells entries = .ok cells') : ∀ x ∈ cells', IsProbability x.2 := by
  obtain ⟨xs, rfl, hxs, -⟩ := exists_of_placed h
  refine List.forall_mem_append.2 ⟨hcells, fun x hx => ?_⟩
  obtain ⟨e, -, -, hp⟩ := exists_left_of_forall₂ hxs hx
  exact Line.isProbability_of_probability hp

/-- Two states that exclude each other. -/
theorem isProbability_pair (own : DefaultStates) {p q : ℚ} (hp : IsProbability p)
    (hq : IsProbability q) : ∀ x ∈ pair own p q, IsProbability x := by
  rw [pair]
  split_ifs <;> simp [hp, hq]

/-! ## Tables -/

theorem isProbability_fullTable {settings : Settings ℚ} {table : List ℚ}
    (h : b.fullTable c settings = .ok table) : ∀ p ∈ table, IsProbability p := by
  obtain ⟨cells, hcells, -, -, rfl⟩ := fullTable_eq_ok_iff.1 h
  have hprob := isProbability_placed (by simp) hcells
  intro p hp
  obtain ⟨ps, hps, hp⟩ := List.mem_flatten.1 hp
  obtain ⟨r, -, rfl⟩ := List.mem_map.1 hps
  obtain ⟨s, -, rfl⟩ := List.mem_map.1 hp
  exact IsProbability.getD_lookup hprob _

theorem isProbability_rootTable {own : DefaultStates} {e : BlockEntry} {table : List ℚ}
    (h : rootTable own e = .ok table) : ∀ p ∈ table, IsProbability p := by
  obtain ⟨p, hp, rfl⟩ := map_eq_ok.1 h
  have hp := Line.isProbability_of_probability hp
  have htrue : IsProbability (if e.key = ['1'] then p else 1 - p) := by
    split_ifs
    · exact hp
    · exact hp.complement
  exact isProbability_pair own htrue.complement htrue

theorem isProbability_shorthandTable {table : List ℚ} (h : b.shorthandTable c = .ok table) :
    ∀ p ∈ table, IsProbability p := by
  simp only [shorthandTable, bind_eq_ok] at h
  obtain ⟨own, -, parents, -, h⟩ := h
  split at h
  · exact isProbability_rootTable h
  · simp only [bind_eq_ok] at h
    obtain ⟨cells, hcells, _, -, h⟩ := h
    cases h
    have hprob := isProbability_placed (by simp) hcells
    intro p hp
    obtain ⟨r, -, hp⟩ := List.mem_flatMap.1 hp
    have hr := IsProbability.getD_lookup hprob r
    exact isProbability_pair own hr.complement hr p hp

/-- **The table of a block has probabilities only.** -/
theorem isProbability_node {settings : Settings ℚ} {m : Node ℚ}
    (h : b.node c settings = .ok m) : ∀ p ∈ m.table, IsProbability p := by
  obtain ⟨shorthand, table, -, htable, rfl⟩ := node_eq_ok_iff.1 h
  cases shorthand with
  | true => exact isProbability_shorthandTable htable
  | false => exact isProbability_fullTable htable

end JointProb.Block
