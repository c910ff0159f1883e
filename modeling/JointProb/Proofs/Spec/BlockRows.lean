/-
  JointProb — the rows of the tables that blocks describe.

  * `Block.HasRows` says that a table is made of rows with a property, one for
    each assignment to the parents of the block;
  * `Block.hasRows_fullTable` and `Block.hasRows_shorthandTable`: in full
    notation rows have the sum one within the tolerance, in shorthand exactly;
  * `Block.of_node`: the node of a block has a table in its notation;
  * `Node.rows_of_hasRows`: such rows are those of the node.
-/
import JointProb.Proofs.Spec.FullTable

namespace JointProb

/-! ## Lists of equal length -/

section

variable {α : Type} {xss : List (List α)} {k : Nat}

theorem length_flatten_of_forall (h : ∀ xs ∈ xss, xs.length = k) :
    xss.flatten.length = xss.length * k := by
  induction xss with
  | nil => simp
  | cons xs xss ih =>
    rw [List.forall_mem_cons] at h
    rw [List.flatten_cons, List.length_append, h.1, ih h.2, List.length_cons, Nat.succ_mul,
      Nat.add_comm]

/-- Each list is found where it was put. -/
theorem take_drop_flatten (h : ∀ xs ∈ xss, xs.length = k) {r : Nat} (hr : r < xss.length) :
    (xss.flatten.drop (r * k)).take k = xss[r] := by
  induction xss generalizing r with
  | nil => cases hr
  | cons xs xss ih =>
    obtain ⟨hxs, hrest⟩ := List.forall_mem_cons.1 h
    rw [List.flatten_cons]
    cases r with
    | zero =>
      rw [Nat.zero_mul, List.drop_zero, ← hxs, List.take_left]
      rfl
    | succ r =>
      have hdrop : (xs ++ xss.flatten).drop ((r + 1) * k) = xss.flatten.drop (r * k) := by
        rw [Nat.succ_mul, Nat.add_comm, ← List.drop_drop, ← hxs, List.drop_left]
      rw [hdrop, ih hrest (Nat.lt_of_succ_lt_succ hr)]
      rfl

end

namespace Block

variable {c : Catalog} {b : Block} {settings : Settings ℚ} {P : List ℚ → Prop} {table : List ℚ}

/-- A table of rows with a property, one for each assignment to the parents,
    with an entry for each state. -/
def HasRows (c : Catalog) (b : Block) (P : List ℚ → Prop) (table : List ℚ) : Prop :=
  ∃ rows : List (List ℚ), rows.flatten = table ∧ rows.length = b.rowCount c ∧
    ∀ ps ∈ rows, ps.length = (b.variableIn c).cardinality ∧ P ps

/-! ## Full notation -/

/-- **In full notation rows have the sum one within the tolerance.** -/
theorem hasRows_fullTable (h : b.fullTable c settings = .ok table) :
    b.HasRows c (fun ps => |ps.sum - 1| ≤ settings.tolerances.sum) table := by
  obtain ⟨cells, -, -, hrows, rfl⟩ := fullTable_eq_ok_iff.1 h
  refine ⟨_, rfl, by simp [cellRows], fun ps hps => ⟨?_, ?_⟩⟩
  · obtain ⟨r, -, rfl⟩ := List.mem_map.1 hps
    simp
  · have hnear := hrows ps hps
    rwa [Weights.near_iff, Weights.compensatedSum_eq_sum] at hnear

/-! ## Shorthand -/

theorem cardinality_of_defaultsIn {v : Variable} {own : DefaultStates}
    (h : (b.defaultsIn c v : Except (SpecError ℚ) DefaultStates) = .ok own) :
    v.cardinality = 2 := by
  simpa [Variable.isBinary] using (defaultsIn_eq_ok_iff.1 h).1

theorem length_pair (own : DefaultStates) (p q : ℚ) : (pair own p q).length = 2 := by
  rw [pair]
  split_ifs <;> rfl

/-- A probability and what is left of one. -/
theorem sum_pair (own : DefaultStates) (p : ℚ) : (pair own (1 - p) p).sum = 1 := by
  rw [pair]
  split_ifs <;> simp

theorem exists_pair_of_rootTable {own : DefaultStates} {e : BlockEntry}
    (h : rootTable own e = .ok table) : ∃ p, table = pair own (1 - p) p := by
  obtain ⟨p, -, rfl⟩ := map_eq_ok.1 h
  exact ⟨_, rfl⟩

/-- **In shorthand rows have the sum one.** -/
theorem hasRows_shorthandTable (h : b.shorthandTable c = .ok table) :
    b.HasRows c (fun ps => ps.sum = 1) table := by
  simp only [shorthandTable, bind_eq_ok] at h
  obtain ⟨own, hown, parents, -, h⟩ := h
  have hcard := cardinality_of_defaultsIn hown
  have hrow : ∀ p : ℚ, (pair own (1 - p) p).length = (b.variableIn c).cardinality ∧
      (pair own (1 - p) p).sum = 1 := fun p => ⟨hcard ▸ length_pair own _ _, sum_pair own p⟩
  split at h
  next hparents _ =>
    -- without parents the table is a single row
    obtain ⟨p, rfl⟩ := exists_pair_of_rootTable h
    refine ⟨[pair own (1 - p) p], by simp, ?_, List.forall_mem_singleton.2 (hrow p)⟩
    simp [rowCount, radices, hparents, MixedRadix.size]
  next =>
    simp only [bind_eq_ok] at h
    obtain ⟨cells, -, _, -, h⟩ := h
    cases h
    refine ⟨_, List.flatMap_def.symm, by simp, fun ps hps => ?_⟩
    obtain ⟨r, -, rfl⟩ := List.mem_map.1 hps
    exact hrow _

/-! ## Nodes -/

/-- **The node of a block has its variable, its parents, and a table in its
    notation.** -/
theorem of_node {m : Node ℚ} (h : b.node c settings = .ok m) :
    m.child = b.child ∧ m.parents = b.parents ∧
      (((b.isShorthand c : Except (SpecError ℚ) Bool) = .ok true ∧
          b.HasRows c (fun ps => ps.sum = 1) m.table) ∨
        ((b.isShorthand c : Except (SpecError ℚ) Bool) = .ok false ∧
          b.HasRows c (fun ps => |ps.sum - 1| ≤ settings.tolerances.sum) m.table)) := by
  obtain ⟨shorthand, table, hshort, htable, rfl⟩ := node_eq_ok_iff.1 h
  cases shorthand with
  | true => exact ⟨rfl, rfl, .inl ⟨hshort, hasRows_shorthandTable htable⟩⟩
  | false => exact ⟨rfl, rfl, .inr ⟨hshort, hasRows_fullTable htable⟩⟩

end Block

namespace Node

variable {c : Catalog} {b : Block} {m : Node ℚ} {P : List ℚ → Prop}

/-- **The rows that a table is made of are those of the node.** -/
theorem rows_of_hasRows (hchild : m.child = b.child) (hparents : m.parents = b.parents)
    (h : b.HasRows c P m.table) :
    m.table.length = m.rowCount c * c.cardinalityAt m.child ∧ ∀ ps ∈ m.rows c, P ps := by
  obtain ⟨rows, hflatten, hcount, hrows⟩ := h
  have hcard : (b.variableIn c).cardinality = c.cardinalityAt m.child := by
    rw [Block.variableIn, hchild, Catalog.cardinality_variableAt]
  have hcount : rows.length = m.rowCount c := by
    rw [hcount, Block.rowCount, Block.radices, rowCount, radices, hparents]
  have hlength : ∀ ps ∈ rows, ps.length = c.cardinalityAt m.child :=
    fun ps hps => (hrows ps hps).1.trans hcard
  refine ⟨?_, fun ps hps => ?_⟩
  · rw [← hflatten, length_flatten_of_forall hlength, hcount]
  · obtain ⟨r, hr, rfl⟩ := List.mem_map.1 hps
    have hlt : r < rows.length := hcount ▸ List.mem_range.1 hr
    rw [← hflatten, take_drop_flatten hlength hlt]
    exact (hrows _ (List.getElem_mem hlt)).2

end Node

end JointProb
