/-
  JointProb — tables over truth values.

  Some pairs of labels mean false and true.  If those of a variable and of its
  parents do, the table of the variable can be given by truth values, whatever
  the order of the labels is.

  * `Variable.IsLabelled` says which labels of a variable mean false and true,
    `Variable.IsLabelled.defaults?_eq` that these tell the two states;
  * `Block.tableOf` is the table with given probabilities of true;
  * `Block.getElem?_tableOf` says what it holds, `Block.flatMap_pair` what its
    rows are;
  * `Block.map_rowOf_perm` and `Block.map_placeOf_perm`: truth values reach
    each row and each place once.
-/
import JointProb.Proofs.Spec.FullTable
import JointProb.Proofs.Spec.Pattern

namespace JointProb

open Text

/-! ## Labels that mean false and true -/

theorem exists_of_meansFalseTrue {no yes : String} (h : meansFalseTrue no yes) :
    ∃ w ∈ booleanLabels, no.toList.map Char.toLower = w.1.toList.map Char.toLower ∧
      yes.toList.map Char.toLower = w.2.toList.map Char.toLower := by
  simpa [meansFalseTrue, equalUpToCase] using h

/-- No label means both. -/
theorem meansFalseTrue_swap {no yes : String} (h : meansFalseTrue no yes) :
    meansFalseTrue yes no = false := by
  have hdistinct : ∀ v ∈ booleanLabels, ∀ w ∈ booleanLabels,
      v.1.toList.map Char.toLower ≠ w.2.toList.map Char.toLower := by decide
  rw [← Bool.not_eq_true]
  intro hswap
  obtain ⟨v, hv, hno, -⟩ := exists_of_meansFalseTrue h
  obtain ⟨w, hw, -, hno'⟩ := exists_of_meansFalseTrue hswap
  exact hdistinct v hv w hw (hno.symm.trans hno')

/-- A word of letters and digits is a label, in any case. -/
theorem isLabel_of_lower {label : String} {ds : List Char}
    (h : label.toList.map Char.toLower = ds) (hds : ds.all Char.isAlphanum) : IsLabel label := by
  refine isLabel_of_forall fun c hc => ?_
  have hlower : c.toLower.isAlphanum :=
    List.all_eq_true.1 hds _ (h ▸ List.mem_map_of_mem hc)
  rw [inName, isAlphanum_of_toLower hlower, Bool.true_or]

theorem isLabel_of_meansFalseTrue {no yes : String} (h : meansFalseTrue no yes) :
    IsLabel no ∧ IsLabel yes := by
  have hwords : booleanLabels.all fun w => (w.1.toList.map Char.toLower).all Char.isAlphanum &&
      (w.2.toList.map Char.toLower).all Char.isAlphanum := by decide
  obtain ⟨w, hw, hno, hyes⟩ := exists_of_meansFalseTrue h
  have hword := List.all_eq_true.1 hwords w hw
  rw [Bool.and_eq_true] at hword
  exact ⟨isLabel_of_lower hno hword.1, isLabel_of_lower hyes hword.2⟩

namespace Variable

variable {v : Variable} {label : Bool → String}

/-- The two labels of a variable, in either order, mean false and true. -/
structure IsLabelled (v : Variable) (label : Bool → String) : Prop where
  means : meansFalseTrue (label false) (label true)
  states_eq : v.states = [label false, label true] ∨ v.states = [label true, label false]

instance (v : Variable) (label : Bool → String) : Decidable (v.IsLabelled label) :=
  decidable_of_iff (meansFalseTrue (label false) (label true) ∧
      (v.states = [label false, label true] ∨ v.states = [label true, label false]))
    ⟨fun h => ⟨h.1, h.2⟩, fun h => ⟨h.means, h.states_eq⟩⟩

namespace IsLabelled

theorem label_ne (h : v.IsLabelled label) : label false ≠ label true := by
  intro heq
  have hmeans := h.means
  have hswap := meansFalseTrue_swap hmeans
  rw [heq] at hmeans hswap
  rw [hmeans] at hswap
  cases hswap

theorem isLabel (h : v.IsLabelled label) (x : Bool) : IsLabel (label x) := by
  obtain ⟨hno, hyes⟩ := isLabel_of_meansFalseTrue h.means
  cases x
  · exact hno
  · exact hyes

theorem mem_states (h : v.IsLabelled label) (x : Bool) : label x ∈ v.states := by
  rcases h.states_eq with hs | hs <;> cases x <;> simp [hs]

theorem cardinality_eq (h : v.IsLabelled label) : v.cardinality = 2 := by
  rcases h.states_eq with hs | hs <;> simp [cardinality, hs]

theorem idxOf_lt (h : v.IsLabelled label) (x : Bool) : v.states.idxOf (label x) < 2 := by
  rw [← h.cardinality_eq]
  exact List.idxOf_lt_length_of_mem (h.mem_states x)

theorem idxOf_injective (h : v.IsLabelled label) :
    Function.Injective fun x => v.states.idxOf (label x) := by
  intro x y hxy
  have hlabel : label x = label y := (List.idxOf_inj (h.mem_states x)).1 hxy
  cases x <;> cases y
  · rfl
  · exact absurd hlabel h.label_ne
  · exact absurd hlabel.symm h.label_ne
  · rfl

/-- **The labels tell the false and the true state.** -/
theorem defaults?_eq (h : v.IsLabelled label) :
    v.defaults? = some ⟨v.states.idxOf (label false), v.states.idxOf (label true)⟩ := by
  have hne := h.label_ne
  rcases h.states_eq with hs | hs
  · simp [defaults?, hs, h.means, hne]
  · simp [defaults?, hs, h.means, meansFalseTrue_swap h.means, hne.symm]

end IsLabelled

end Variable

/-! ## Numbers of truth values -/

/-- The state that means a truth value. -/
def Catalog.stateMeaning (c : Catalog) (label : Nat → Bool → String) (v : Nat) (x : Bool) : Nat :=
  (c.variableAt v).states.idxOf (label v x)

/-- The states that mean false and true. -/
def Catalog.statesMeaning (c : Catalog) (label : Nat → Bool → String) (v : Nat) : DefaultStates :=
  ⟨c.stateMeaning label v false, c.stateMeaning label v true⟩

/-- The probability of a truth value, from that of true. -/
def chance (p : ℚ) (x : Bool) : ℚ := if x then p else 1 - p

section

variable {c : Catalog} {label : Nat → Bool → String} {ps : List Nat}

theorem below_stateMeaning (h : ∀ p ∈ ps, (c.variableAt p).IsLabelled (label p)) {bits : Bits}
    (hlen : bits.length = ps.length) :
    MixedRadix.Below (ps.map c.cardinalityAt) (List.zipWith (c.stateMeaning label) ps bits) := by
  induction ps generalizing bits with
  | nil => exact .nil
  | cons p ps ih =>
    obtain ⟨x, bits, rfl⟩ := List.exists_cons_of_length_eq_add_one hlen
    obtain ⟨hp, hps⟩ := List.forall_mem_cons.1 h
    refine .cons ?_ (ih hps (Nat.succ_inj.1 hlen))
    rw [← Catalog.cardinality_variableAt, hp.cardinality_eq]
    exact hp.idxOf_lt x

/-- Different truth values are different states. -/
theorem eq_of_stateMeaning_eq (h : ∀ p ∈ ps, (c.variableAt p).IsLabelled (label p)) {a b : Bits}
    (ha : a.length = ps.length) (hb : b.length = ps.length)
    (heq : List.zipWith (c.stateMeaning label) ps a = List.zipWith (c.stateMeaning label) ps b) :
    a = b := by
  induction ps generalizing a b with
  | nil => rw [List.eq_nil_of_length_eq_zero ha, List.eq_nil_of_length_eq_zero hb]
  | cons p ps ih =>
    obtain ⟨x, a, rfl⟩ := List.exists_cons_of_length_eq_add_one ha
    obtain ⟨y, b, rfl⟩ := List.exists_cons_of_length_eq_add_one hb
    obtain ⟨hp, hps⟩ := List.forall_mem_cons.1 h
    obtain ⟨hxy, hrest⟩ := List.cons_eq_cons.1 heq
    rw [hp.idxOf_injective hxy, ih hps (Nat.succ_inj.1 ha) (Nat.succ_inj.1 hb) hrest]

end

/-- Numbers below their count, all different, are all of them. -/
theorem map_perm_range {ι : Type} {f : ι → Nat} {xs : List ι} {n : Nat} (hnodup : xs.Nodup)
    (hinj : ∀ x ∈ xs, ∀ y ∈ xs, f x = f y → x = y) (hlt : ∀ x ∈ xs, f x < n)
    (hlen : n ≤ xs.length) : (xs.map f).Perm (List.range n) := by
  refine (List.subperm_of_subset (hnodup.map_on hinj) fun i hi => ?_).perm_of_length_le (by simpa)
  obtain ⟨x, hx, rfl⟩ := List.mem_map.1 hi
  exact List.mem_range.2 (hlt x hx)

namespace Block

variable (c : Catalog) (label : Nat → Bool → String) (b : Block)

/-- The labels of the child and of the parents mean false and true. -/
def IsLabelled : Prop := ∀ v ∈ b.child :: b.parents, (c.variableAt v).IsLabelled (label v)

instance : Decidable (b.IsLabelled c label) :=
  inferInstanceAs (Decidable (∀ v ∈ b.child :: b.parents, (c.variableAt v).IsLabelled (label v)))

/-- The row for truth values of the parents. -/
def rowOf (bits : Bits) : Nat :=
  MixedRadix.value (b.radices c) (List.zipWith (c.stateMeaning label) b.parents bits)

/-- The place for truth values of the parents and of the child. -/
def placeOf (bits : Bits) (x : Bool) : Nat :=
  b.rowOf c label bits * 2 + c.stateMeaning label b.child x

/-- The truth values of the parents in a row. -/
def bitsOf (row : Nat) : Bits :=
  ((Bits.all b.parents.length).find? (b.rowOf c label · == row)).getD []

/-- The probability at a place. -/
def chanceAt (q : Bits → ℚ) (i : Nat) : ℚ :=
  chance (q (b.bitsOf c label (i / 2))) (i % 2 == c.stateMeaning label b.child true)

/-- The table of the probabilities of true, given truth values of the
    parents. -/
def tableOf (q : Bits → ℚ) : List ℚ :=
  (List.range (2 ^ b.parents.length * 2)).map (b.chanceAt c label q)

variable {c label b}

theorem IsLabelled.child (h : b.IsLabelled c label) :
    (b.variableIn c).IsLabelled (label b.child) := h b.child (by simp)

theorem IsLabelled.parents (h : b.IsLabelled c label) :
    ∀ p ∈ b.parents, (c.variableAt p).IsLabelled (label p) :=
  fun p hp => h p (List.mem_cons_of_mem _ hp)

theorem rowCount_eq (h : b.IsLabelled c label) : b.rowCount c = 2 ^ b.parents.length := by
  have hradices : b.radices c = List.replicate b.parents.length 2 := by
    rw [radices, ← List.map_const']
    refine List.map_congr_left fun p hp => ?_
    rw [← Catalog.cardinality_variableAt, (h.parents p hp).cardinality_eq]
  rw [rowCount, hradices, Bits.size_replicate]

variable {bits bits' : Bits} {x x' : Bool}

theorem rowOf_lt (h : b.IsLabelled c label) (hlen : bits.length = b.parents.length) :
    b.rowOf c label bits < 2 ^ b.parents.length := by
  rw [← rowCount_eq h]
  exact MixedRadix.value_lt_size (below_stateMeaning h.parents hlen)

theorem rowOf_inj (h : b.IsLabelled c label) (hlen : bits.length = b.parents.length)
    (hlen' : bits'.length = b.parents.length)
    (heq : b.rowOf c label bits = b.rowOf c label bits') : bits = bits' :=
  eq_of_stateMeaning_eq h.parents hlen hlen' <|
    MixedRadix.eq_of_value_eq (below_stateMeaning h.parents hlen)
      (below_stateMeaning h.parents hlen') heq

/-- A row tells the truth values that it is for. -/
theorem bitsOf_rowOf (h : b.IsLabelled c label) (hlen : bits.length = b.parents.length) :
    b.bitsOf c label (b.rowOf c label bits) = bits := by
  rw [bitsOf]
  cases hfind : (Bits.all b.parents.length).find? (b.rowOf c label · == b.rowOf c label bits) with
  | none =>
    have hnone := List.find?_eq_none.1 hfind bits (Bits.mem_all.2 hlen)
    exact absurd (beq_self_eq_true _) hnone
  | some found =>
    have hfound := Bits.mem_all.1 (List.mem_of_find?_eq_some hfind)
    have hrow : (b.rowOf c label found == b.rowOf c label bits) := by
      simpa using List.find?_some hfind
    exact rowOf_inj h hfound hlen (eq_of_beq hrow)

theorem placeOf_lt (h : b.IsLabelled c label) (hlen : bits.length = b.parents.length) (x : Bool) :
    b.placeOf c label bits x < 2 ^ b.parents.length * 2 := by
  have hrow := rowOf_lt h hlen
  have hstate : c.stateMeaning label b.child x < 2 := h.child.idxOf_lt x
  rw [placeOf]
  omega

/-- **A place has the probability of its truth values.** -/
theorem chanceAt_placeOf (h : b.IsLabelled c label) (hlen : bits.length = b.parents.length)
    (q : Bits → ℚ) (x : Bool) :
    b.chanceAt c label q (b.placeOf c label bits x) = chance (q bits) x := by
  have hstate : c.stateMeaning label b.child x < 2 := h.child.idxOf_lt x
  have hrow : b.placeOf c label bits x / 2 = b.rowOf c label bits := by rw [placeOf]; omega
  have hmod : b.placeOf c label bits x % 2 = c.stateMeaning label b.child x := by
    rw [placeOf]; omega
  have hmeans : (c.stateMeaning label b.child x == c.stateMeaning label b.child true) = x := by
    rw [Bool.eq_iff_iff, beq_iff_eq]
    exact ⟨fun heq => h.child.idxOf_injective heq, fun hx => by rw [hx]⟩
  rw [chanceAt, hrow, bitsOf_rowOf h hlen, hmod, hmeans]

theorem tableOf_congr {b' : Block} (hchild : b'.child = b.child) (hparents : b'.parents = b.parents)
    (q : Bits → ℚ) : b'.tableOf c label q = b.tableOf c label q := by
  obtain ⟨child, parents, line, entries⟩ := b
  obtain rfl : b'.child = child := hchild
  obtain rfl : b'.parents = parents := hparents
  rfl

/-- **What the table holds.** -/
theorem getElem?_tableOf (h : b.IsLabelled c label) (hlen : bits.length = b.parents.length)
    (q : Bits → ℚ) (x : Bool) :
    (b.tableOf c label q)[b.placeOf c label bits x]? = some (chance (q bits) x) := by
  rw [tableOf, List.getElem?_map, List.getElem?_range (placeOf_lt h hlen x), Option.map_some,
    chanceAt_placeOf h hlen]

/-! ## All rows and places -/

/-- The rows of all truth values of the parents are all rows. -/
theorem map_rowOf_perm (h : b.IsLabelled c label) :
    ((Bits.all b.parents.length).map (b.rowOf c label)).Perm
      (List.range (2 ^ b.parents.length)) :=
  map_perm_range (Bits.nodup_all _)
    (fun _ hx _ hy => rowOf_inj h (Bits.mem_all.1 hx) (Bits.mem_all.1 hy))
    (fun _ hx => rowOf_lt h (Bits.mem_all.1 hx)) (Bits.length_all _).ge

theorem placeOf_inj (h : b.IsLabelled c label) (hlen : bits.length = b.parents.length)
    (hlen' : bits'.length = b.parents.length)
    (heq : b.placeOf c label bits x = b.placeOf c label bits' x') : bits = bits' ∧ x = x' := by
  have hstate : c.stateMeaning label b.child x < 2 := h.child.idxOf_lt x
  have hstate' : c.stateMeaning label b.child x' < 2 := h.child.idxOf_lt x'
  rw [placeOf, placeOf] at heq
  have hrow : b.rowOf c label bits = b.rowOf c label bits' := by omega
  have hmeans : c.stateMeaning label b.child x = c.stateMeaning label b.child x' := by omega
  exact ⟨rowOf_inj h hlen hlen' hrow, h.child.idxOf_injective hmeans⟩

/-- The places of all truth values are all places. -/
theorem map_placeOf_perm (h : b.IsLabelled c label) :
    ((Bits.all b.parents.length ×ˢ [true, false]).map fun x => b.placeOf c label x.1 x.2).Perm
      (List.range (2 ^ b.parents.length * 2)) := by
  have hlen {x : Bits × Bool} (hx : x ∈ Bits.all b.parents.length ×ˢ [true, false]) :
      x.1.length = b.parents.length := Bits.mem_all.1 (List.mem_product.1 hx).1
  refine map_perm_range ((Bits.nodup_all _).product (by decide)) (fun x hx y hy heq => ?_)
    (fun x hx => placeOf_lt h (hlen hx) x.2) ?_
  · obtain ⟨hbits, hx⟩ := placeOf_inj h (hlen hx) (hlen hy) heq
    exact Prod.ext hbits hx
  · rw [List.length_product, Bits.length_all]
    exact le_rfl

/-! ## Rows -/

/-- The probabilities in a row, in the order of the states of the child. -/
theorem pair_eq_map (h : b.IsLabelled c label) (q : Bits → ℚ) (r : Nat) :
    pair (c.statesMeaning label b.child) (1 - q (b.bitsOf c label r)) (q (b.bitsOf c label r)) =
      (List.range 2).map fun s => b.chanceAt c label q (r * 2 + s) := by
  have hchance {s : Nat} (hs : s < 2) : b.chanceAt c label q (r * 2 + s) =
      chance (q (b.bitsOf c label r)) (s == c.stateMeaning label b.child true) := by
    have hrow : (r * 2 + s) / 2 = r := by omega
    have hmod : (r * 2 + s) % 2 = s := by omega
    rw [chanceAt, hrow, hmod]
  have htrue : c.stateMeaning label b.child true < 2 := h.child.idxOf_lt true
  rw [List.range_succ, List.range_one, List.map_append, List.map_singleton, List.map_singleton,
    hchance Nat.zero_lt_two, hchance Nat.one_lt_two, pair]
  -- the true state is the first or the second one
  obtain htrue | htrue : c.stateMeaning label b.child true = 0 ∨
      c.stateMeaning label b.child true = 1 := by omega
  all_goals simp [htrue, chance, Catalog.statesMeaning]

/-- Row by row the probabilities are the table. -/
theorem flatMap_pair (h : b.IsLabelled c label) (q : Bits → ℚ) :
    ((List.range (2 ^ b.parents.length)).flatMap fun r => pair (c.statesMeaning label b.child)
      (1 - q (b.bitsOf c label r)) (q (b.bitsOf c label r))) = b.tableOf c label q := by
  simp only [pair_eq_map h, List.flatMap_def, flatten_map_rows]
  rfl

/-- A block without parents has a single row. -/
theorem tableOf_root (h : b.IsLabelled c label) (hroot : b.parents = []) (p : ℚ) :
    pair (c.statesMeaning label b.child) (1 - p) p = b.tableOf c label fun _ => p := by
  rw [← flatMap_pair h, hroot]
  exact (List.append_nil _).symm

end Block

end JointProb
