/-
  JointProb — two notations for the same probabilities.

      variable Strike {ON, off}         Late <- (Strike)
      variable Late {no, yes}           (yes | off): 0.1
      Late <- (Strike)                  (yes | ON): 0.7
      0: 0.1                            (no | ON): 0.3
      1: 0.7                            (no | off): 0.9

  A bit stands for the state whose label means it, wherever this state is in
  the list of its variable.

  * `Block.InShorthand` and `Block.InFull` say what lines there are, in any
    order;
  * `Block.shorthandTable_eq_tableOf` and `Block.fullTable_eq_tableOf`: in both
    notations they describe the table over truth values;
  * `Block.notationsAgree`: so they describe the same node.
-/
import JointProb.Proofs.Catalog.InStep
import JointProb.Proofs.Spec.BlockRows
import JointProb.Proofs.Spec.TruthTable

namespace JointProb

namespace Block

variable {c : Catalog} {label : Nat → Bool → String} {b : Block} {bits : Bits}

/-! ## Entries -/

variable (b)

/-- There is an entry for each index, in any order, with a key and a value. -/
def Lists {ι : Type} (key : ι → List Char) (value : ι → ℚ) (xs : List ι) : Prop :=
  ∃ order : List ι, order.Perm xs ∧ List.Forall₂ (fun e x => e.key = key x ∧
    Line.probability e.line e.value = .ok (value x)) b.entries order

/-- Lines with a bit for each parent, and the probability of true. -/
def InShorthand (q : Bits → ℚ) : Prop := b.Lists Bits.text q (Bits.all b.parents.length)

/-- Lines with a label of the child and one for each parent. -/
def InFull (label : Nat → Bool → String) (q : Bits → ℚ) : Prop :=
  b.Lists (fun x => NetworkLine.key (label b.child x.2) (List.zipWith label b.parents x.1))
    (fun x => chance (q x.1) x.2) (Bits.all b.parents.length ×ˢ [true, false])

variable {b}

/-! ## Shorthand -/

theorem defaultsIn_of_isLabelled {v : Nat} (h : (c.variableAt v).IsLabelled (label v)) :
    (b.defaultsIn c (c.variableAt v) : Except (SpecError ℚ) DefaultStates) =
      .ok (c.statesMeaning label v) := by
  have hbinary : (c.variableAt v).isBinary := by simp [Variable.isBinary, h.cardinality_eq]
  simp only [defaultsIn, hbinary, not_true_eq_false, if_false, h.defaults?_eq]
  rfl

/-- The states in a row for bits. -/
theorem bitsRow_text {e : BlockEntry} (hlen : bits.length = b.parents.length)
    (hkey : e.key = bits.text) :
    (b.bitsRow c (b.parents.map (c.statesMeaning label)) e : Except (SpecError ℚ) Nat) =
      .ok (b.rowOf c label bits) := by
  have hpattern : e.key.length = (b.parents.map (c.statesMeaning label)).length ∧
      Line.isPattern e.key :=
    ⟨by simp [hkey, Bits.text, hlen], hkey ▸ bits.isPattern_text⟩
  rw [bitsRow, if_pos hpattern, rowOf, hkey, Bits.text, List.zipWith_map, List.zipWith_comm]
  congr 3
  funext p x
  cases x <;> rfl

theorem mapM_defaultsIn (h : b.IsLabelled c label) :
    (b.parents.mapM fun p => (b.defaultsIn c (c.variableAt p) :
      Except (SpecError ℚ) DefaultStates)) = .ok (b.parents.map (c.statesMeaning label)) :=
  mapM_eq_ok.2 <| List.forall₂_map_right_iff.2 <| List.forall₂_same.2 fun p hp =>
    defaultsIn_of_isLabelled (h.parents p hp)

/-- **The table of a block in shorthand.** -/
theorem shorthandTable_eq_tableOf (h : b.IsLabelled c label) (hne : b.parents ≠ []) {q : Bits → ℚ}
    (hb : b.InShorthand q) : b.shorthandTable c = .ok (b.tableOf c label q) := by
  obtain ⟨order, hperm, hentries⟩ := hb
  have hrows := (hperm.map (b.rowOf c label)).trans (map_rowOf_perm h)
  have hfills : Fills (b.bitsRow c (b.parents.map (c.statesMeaning label)))
      (fun r => q (b.bitsOf c label r)) b.entries (order.map (b.rowOf c label)) := by
    refine List.forall₂_map_right_iff.2 (forall₂_imp_mem hentries fun e _ bits hbits he => ?_)
    have hlen := Bits.mem_all.1 (hperm.mem_iff.1 hbits)
    exact ⟨bitsRow_text hlen he.1, by simp only [he.2, bitsOf_rowOf h hlen]⟩
  have hcells := hfills.placed_eq_ok (c := c) (b := b) (hrows.nodup_iff.2 List.nodup_range)
  have hfound : ((order.map (b.rowOf c label)).map fun r =>
      (r, q (b.bitsOf c label r))).length = b.rowCount c := by
    rw [List.length_map, hrows.length_eq, List.length_range, rowCount_eq h]
  have htable : ((List.range (2 ^ b.parents.length)).flatMap fun r =>
      pair (c.statesMeaning label b.child)
        (1 - (((order.map (b.rowOf c label)).map fun r =>
          (r, q (b.bitsOf c label r))).lookup r).getD 0)
        ((((order.map (b.rowOf c label)).map fun r =>
          (r, q (b.bitsOf c label r))).lookup r).getD 0)) = b.tableOf c label q := by
    rw [← flatMap_pair h, List.flatMap_def, List.flatMap_def]
    congr 1
    refine List.map_congr_left fun r hr => ?_
    rw [List.lookup_graph (fun r => q (b.bitsOf c label r)) (hrows.mem_iff.2 hr),
      Option.getD_some]
  have hown := defaultsIn_of_isLabelled (b := b) h.child
  simp only [shorthandTable, variableIn, hown, mapM_defaultsIn h, bind, Except.bind]
  split
  · rename_i hnil _
    exact absurd hnil hne
  · simp only [hcells, checkCoverage, hfound, if_true, rowCount_eq h, htable]

/-- **The table of a block with a single entry.** -/
theorem shorthandTable_root (h : b.IsLabelled c label) (hroot : b.parents = []) {p : ℚ} {x : Bool}
    (hb : b.Lists (fun x => Bits.text [x]) (chance p) [x]) :
    b.shorthandTable c = .ok (b.tableOf c label fun _ => p) := by
  obtain ⟨order, hperm, hentries⟩ := hb
  rw [List.perm_singleton.1 hperm, List.forall₂_cons_right_iff] at hentries
  obtain ⟨e, es, ⟨hkey, hvalue⟩, -, hes⟩ := hentries
  have htrue : (if e.key = ['1'] then chance p x else 1 - chance p x) = p := by
    cases x <;> simp [hkey, Bits.text, Bits.digit, chance]
  have hown := defaultsIn_of_isLabelled (b := b) h.child
  simp only [shorthandTable, variableIn, hown, hroot, hes, List.mapM_nil, bind, Except.bind, pure,
    Except.pure, rootTable, hvalue, Except.map, htrue, tableOf_root h hroot]

/-! ## Full notation -/

theorem isLabel_zipWith (h : b.IsLabelled c label) (bits : Bits) :
    ∀ l ∈ List.zipWith label b.parents bits, IsLabel l := by
  intro l hl
  obtain ⟨i, hi, rfl⟩ := List.getElem_of_mem hl
  rw [List.getElem_zipWith]
  exact (h.parents _ (List.getElem_mem _)).isLabel _

/-- The labels that mean truth values lead to their place. -/
theorem fullPlace_of_isLabelled (h : b.IsLabelled c label) {e : BlockEntry} {x : Bool}
    (hlen : bits.length = b.parents.length)
    (hread : (e.labels : Except (SpecError ℚ) (List Char × List (List Char))) =
      .ok ((label b.child x).toList, (List.zipWith label b.parents bits).map String.toList)) :
    (b.fullPlace c e : Except (SpecError ℚ) Nat) = .ok (b.placeOf c label bits x) := by
  have hlabels : List.Forall₂ (fun p x => (e.stateOf (c.variableAt p) (label p x).toList :
      Except (SpecError ℚ) Nat) = .ok (c.stateMeaning label p x)) b.parents bits := by
    refine List.forall₂_iff_zip.2 ⟨hlen.symm, fun hpx => ?_⟩
    have hp := h.parents _ (List.of_mem_zip hpx).1
    exact BlockEntry.stateOf_of_mem (hp.mem_states _)
  have hstates := parentStates_zipWith hlabels
  rw [← List.map_zipWith] at hstates
  rw [fullPlace_of_labels hread (by simp [hlen]) (BlockEntry.stateOf_of_mem (h.child.mem_states x))
    hstates, h.child.cardinality_eq]
  rfl

/-- **The table of a block with an entry for all truth values.** -/
theorem fullTable_eq_tableOf (h : b.IsLabelled c label) {settings : Settings ℚ}
    (htolerance : 0 ≤ settings.tolerances.sum) {q : Bits → ℚ} {order : List (Bits × Bool)}
    (hperm : order.Perm (Bits.all b.parents.length ×ˢ [true, false]))
    (hentries : List.Forall₂ (fun (e : BlockEntry) x =>
      (b.fullPlace c e : Except (SpecError ℚ) Nat) = .ok (b.placeOf c label x.1 x.2) ∧
        Line.probability e.line e.value = .ok (chance (q x.1) x.2)) b.entries order) :
    b.fullTable c settings = .ok (b.tableOf c label q) := by
  have hplaces := (hperm.map fun x => b.placeOf c label x.1 x.2).trans (map_placeOf_perm h)
  have hfills : Fills (b.fullPlace c) (b.chanceAt c label q) b.entries
      (order.map fun x => b.placeOf c label x.1 x.2) := by
    refine List.forall₂_map_right_iff.2 (forall₂_imp_mem hentries fun e _ x hx he => ?_)
    have hlen := Bits.mem_all.1 (List.mem_product.1 (hperm.mem_iff.1 hx)).1
    exact ⟨he.1, by rw [he.2, chanceAt_placeOf h hlen]⟩
  refine fullTable_eq_map (rowCount_eq h) h.child.cardinality_eq hplaces hfills fun r _ => ?_
  rw [← pair_eq_map h, Weights.near_iff, Weights.compensatedSum_eq_sum, sum_pair, sub_self,
    abs_zero]
  exact htolerance

/-! ## Nodes -/

/-- A node has the variable, the parents and the probabilities of a block. -/
structure Describes (c : Catalog) (label : Nat → Bool → String) (b : Block) (q : Bits → ℚ)
    (m : Node ℚ) : Prop where
  child_eq : m.child = b.child
  parents_eq : m.parents = b.parents
  length_eq : m.table.length = 2 ^ b.parents.length * 2
  getElem?_eq : ∀ bits : Bits, ∀ x, bits.length = b.parents.length →
    m.table[b.placeOf c label bits x]? = some (chance (q bits) x)

theorem describes_tableOf (h : b.IsLabelled c label) (q : Bits → ℚ) :
    b.Describes c label q ⟨b.child, b.parents, b.tableOf c label q⟩ where
  child_eq := rfl
  parents_eq := rfl
  length_eq := by rw [tableOf, List.length_map, List.length_range]
  getElem?_eq _ x hlen := getElem?_tableOf h hlen q x

variable {q : Bits → ℚ} {p : ℚ} {settings : Settings ℚ}

theorem isShorthand_of_inShorthand (hne : b.parents ≠ []) (hb : b.InShorthand q) :
    (b.isShorthand c : Except (SpecError ℚ) Bool) = .ok true := by
  obtain ⟨order, hperm, hentries⟩ := hb
  have hbare : ∀ e ∈ b.entries, e.isFull = false := by
    intro e he
    obtain ⟨bits, -, hkey, -⟩ := exists_right_of_forall₂ hentries he
    rw [BlockEntry.isFull, hkey]
    rcases bits with _ | ⟨x, bits⟩
    · rfl
    · cases x <;> rfl
  have hlength : b.entries.length = 2 ^ b.parents.length := by
    rw [hentries.length_eq, hperm.length_eq, Bits.length_all]
  have hsome : b.entries ≠ [] := List.ne_nil_of_length_pos (hlength ▸ Nat.two_pow_pos _)
  exact (isShorthand_eq_ok_iff hne).2 ⟨hbare, fun hnone => absurd hnone hsome⟩

/-- **A block in shorthand.** -/
theorem node_of_inShorthand (h : b.IsLabelled c label) (hne : b.parents ≠ [])
    (hb : b.InShorthand q) :
    b.node c settings = .ok ⟨b.child, b.parents, b.tableOf c label q⟩ :=
  node_eq_ok_iff.2 ⟨true, _, isShorthand_of_inShorthand hne hb,
    shorthandTable_eq_tableOf h hne hb, rfl⟩

/-- **A block in full notation.** -/
theorem node_of_inFull (h : b.IsLabelled c label) (htolerance : 0 ≤ settings.tolerances.sum)
    (hb : b.InFull label q) :
    b.node c settings = .ok ⟨b.child, b.parents, b.tableOf c label q⟩ := by
  obtain ⟨order, hperm, hentries⟩ := hb
  have hfull : ∀ e ∈ b.entries, e.isFull := by
    intro e he
    obtain ⟨x, -, hkey, -⟩ := exists_right_of_forall₂ hentries he
    exact BlockEntry.isFull_of_key hkey
  have htable := fullTable_eq_tableOf h htolerance hperm <|
    forall₂_imp_mem hentries fun _ _ x hx he =>
      have hlen := Bits.mem_all.1 (List.mem_product.1 (hperm.mem_iff.1 hx)).1
      ⟨fullPlace_of_isLabelled h hlen
        (BlockEntry.labels_eq_ok he.1 (h.child.isLabel x.2) (isLabel_zipWith h x.1)), he.2⟩
  exact node_eq_ok_iff.2 ⟨false, _, isShorthand_of_isFull hfull, htable, rfl⟩

/-- A block without parents and with a single entry. -/
theorem node_of_bit (settings : Settings ℚ) (h : b.IsLabelled c label) (hroot : b.parents = [])
    {x : Bool} (hb : b.Lists (fun x => Bits.text [x]) (chance p) [x]) :
    b.node c settings = .ok ⟨b.child, b.parents, b.tableOf c label fun _ => p⟩ := by
  have hshorthand : (b.isShorthand c : Except (SpecError ℚ) Bool) = .ok true := by
    obtain ⟨order, hperm, hentries⟩ := hb
    rw [List.perm_singleton.1 hperm, List.forall₂_cons_right_iff] at hentries
    obtain ⟨e, es, ⟨hkey, -⟩, hnil, hes⟩ := hentries
    rw [List.forall₂_nil_right_iff.1 hnil] at hes
    have hbinary : (b.variableIn c).isBinary := by simp [Variable.isBinary, h.child.cardinality_eq]
    rw [isShorthand_single hroot hes]
    cases x <;> simp [hkey, hbinary, Bits.text, Bits.digit]
  exact node_eq_ok_iff.2 ⟨true, _, hshorthand, shorthandTable_root h hroot hb, rfl⟩

/-- The truth values without parents. -/
theorem perm_product_root (hroot : b.parents = []) {order : List Bool}
    (hperm : order.Perm [true, false]) : (order.map fun x => (([], x) : Bits × Bool)).Perm
      (Bits.all b.parents.length ×ˢ [true, false]) := by
  rw [hroot]
  exact hperm.map _

/-- Two entries without parents are in full notation, whatever their keys. -/
theorem node_of_two (h : b.IsLabelled c label) (htolerance : 0 ≤ settings.tolerances.sum)
    (hroot : b.parents = []) {order : List Bool} (hperm : order.Perm [true, false])
    (hentries : List.Forall₂ (fun (e : BlockEntry) x =>
      (b.fullPlace c e : Except (SpecError ℚ) Nat) = .ok (b.placeOf c label [] x) ∧
        Line.probability e.line e.value = .ok (chance p x)) b.entries order) :
    b.node c settings = .ok ⟨b.child, b.parents, b.tableOf c label fun _ => p⟩ := by
  have hfull : (b.isShorthand c : Except (SpecError ℚ) Bool) = .ok false := by
    have hlength : b.entries.length = 2 := by rw [hentries.length_eq, hperm.length_eq]; rfl
    exact isShorthand_root hroot (by omega)
  have htable := fullTable_eq_tableOf (q := fun _ => p) h htolerance
    (perm_product_root hroot hperm) (List.forall₂_map_right_iff.2 hentries)
  exact node_eq_ok_iff.2 ⟨false, _, hfull, htable, rfl⟩

/-- A block without parents and with an entry for each label. -/
theorem node_of_labels (h : b.IsLabelled c label) (htolerance : 0 ≤ settings.tolerances.sum)
    (hroot : b.parents = [])
    (hb : b.Lists (fun x => (label b.child x).toList) (chance p) [true, false]) :
    b.node c settings = .ok ⟨b.child, b.parents, b.tableOf c label fun _ => p⟩ := by
  obtain ⟨order, hperm, hentries⟩ := hb
  refine node_of_two h htolerance hroot hperm (hentries.imp fun e x he => ⟨?_, he.2⟩)
  have hread := BlockEntry.labels_of_label (α := ℚ) he.1 (h.child.isLabel x)
  exact fullPlace_of_isLabelled h (by simp [hroot]) (by rw [hroot]; exact hread)

/-- The two notations agree. -/
structure NotationsAgree (c : Catalog) (settings : Settings ℚ) : Prop where
  /-- A line for each assignment to the parents is as good as one for each
      assignment to the parents and the child. -/
  conditional (label : Nat → Bool → String) (q : Bits → ℚ) (b b' : Block)
    (labelled : b.IsLabelled c label) (parents_ne : b.parents ≠ []) (child_eq : b'.child = b.child)
    (parents_eq : b'.parents = b.parents) (shorthand : b.InShorthand q)
    (full : b'.InFull label q) :
    ∃ m, b.node c settings = .ok m ∧ b'.node c settings = .ok m ∧ b.Describes c label q m
  /-- A single line, for either bit, is as good as one for each label. -/
  root (label : Nat → Bool → String) (p : ℚ) (x : Bool) (b b' : Block)
    (labelled : b.IsLabelled c label) (parents_eq : b.parents = []) (child_eq : b'.child = b.child)
    (parents_eq' : b'.parents = []) (bit : b.Lists (fun x => Bits.text [x]) (chance p) [x])
    (labels : b'.Lists (fun x => (label b.child x).toList) (chance p) [true, false]) :
    ∃ m, b.node c settings = .ok m ∧ b'.node c settings = .ok m ∧
      b.Describes c label (fun _ => p) m

/-- **Both notations describe the same node**, whatever pairs of labels mean
    false and true and in whatever order they and the lines stand. -/
theorem notationsAgree (c : Catalog) (settings : Settings ℚ)
    (htolerance : 0 ≤ settings.tolerances.sum) : NotationsAgree c settings where
  conditional label q b b' h hne hchild hparents hb hb' := by
    have h' : b'.IsLabelled c label := by rwa [IsLabelled, hchild, hparents]
    refine ⟨_, node_of_inShorthand h hne hb, ?_, describes_tableOf h q⟩
    rw [node_of_inFull h' htolerance hb', tableOf_congr hchild hparents, hchild, hparents]
  root label p x b b' h hroot hchild hroot' hb hb' := by
    have hparents : b'.parents = b.parents := hroot'.trans hroot.symm
    have h' : b'.IsLabelled c label := by rwa [IsLabelled, hchild, hparents]
    refine ⟨_, node_of_bit settings h hroot hb, ?_, describes_tableOf h _⟩
    rw [node_of_labels h' htolerance hroot' (hchild ▸ hb'), tableOf_congr hchild hparents, hchild,
      hparents]

/-- Labels in three spellings and both orders, and lines in mixed orders. -/
theorem notationsAgree_late :
    let entry : Nat → String → String → BlockEntry := fun line key value =>
      ⟨line, key.toList, value.toList⟩
    let c : Catalog := .of [⟨"Strike", ["ON", "off"]⟩, ⟨"Rain", ["no", "Yes"]⟩, ⟨"Late", ["T", "f"]⟩]
    let bits : Block := ⟨2, [0, 1], 4,
      [entry 5 "10" "0.7", entry 6 "00" "0.1", entry 7 "11" "1", entry 8 "01" "0.25"]⟩
    let labels : Block := ⟨2, [0, 1], 4,
      [entry 5 "(f | ON, Yes)" "0", entry 6 "(T | off, no)" "0.1", entry 7 "(T | ON, Yes)" "1",
        entry 8 "(T | off, Yes)" "0.25", entry 9 "(f | off, no)" "0.9",
        entry 10 "(T | ON, no)" "0.7", entry 11 "(f | off, Yes)" "75e-2",
        entry 12 "(f | ON, no)" ".3"]⟩
    let bit : Block := ⟨0, [], 4, [entry 5 "0" "0.8"]⟩
    let root : Block := ⟨0, [], 4, [entry 5 "off" "0.8", entry 6 "ON" "0.2"]⟩
    0 ≤ (Settings.default : Settings ℚ).tolerances.sum ∧
      (∃ m : Node ℚ, bits.node c .default = .ok m ∧ labels.node c .default = .ok m ∧
        m.table = [7/10, 3/10, 1, 0, 1/10, 9/10, 1/4, 3/4]) ∧
      ∃ m : Node ℚ, bit.node c .default = .ok m ∧ root.node c .default = .ok m ∧
        m.table = [1/5, 4/5] := by
  intro entry c bits labels bit root
  let label : Nat → Bool → String := fun v x =>
    ([["off", "ON"], ["no", "Yes"], ["f", "T"]][v]?.bind (·[x.toNat]?)).getD ""
  let q : Bits → ℚ := fun bits => ([1/10, 1/4, 7/10, 1][bits.number]?).getD 0
  have htolerance : 0 ≤ (Settings.default : Settings ℚ).tolerances.sum := by decide +kernel
  have hbits : bits.InShorthand q :=
    ⟨[[true, false], [false, false], [true, true], [false, true]], by decide, by decide +kernel⟩
  have hlabels : labels.InFull label q :=
    ⟨[([true, true], false), ([false, false], true), ([true, true], true), ([false, true], true),
      ([false, false], false), ([true, false], true), ([false, true], false),
      ([true, false], false)], by decide, by decide +kernel⟩
  have hbit : bit.Lists (fun x => Bits.text [x]) (chance (1/5)) [false] :=
    ⟨[false], .refl _, by decide +kernel⟩
  have hroot : root.Lists (fun x => (label 0 x).toList) (chance (1/5)) [true, false] :=
    ⟨[false, true], by decide, by decide +kernel⟩
  have agree := notationsAgree c .default htolerance
  have htable : bits.node c .default =
      .ok (⟨2, [0, 1], [7/10, 3/10, 1, 0, 1/10, 9/10, 1/4, 3/4]⟩ : Node ℚ) := by decide +kernel
  have hroots : bit.node c .default = .ok (⟨0, [], [1/5, 4/5]⟩ : Node ℚ) := by decide +kernel
  obtain ⟨m, hm, hm', -⟩ := agree.conditional label q bits labels (by decide) (by decide) rfl rfl
    hbits hlabels
  obtain ⟨r, hr, hr', -⟩ := agree.root label (1/5) false bit root (by decide) rfl rfl rfl hbit
    hroot
  cases hm.symm.trans htable
  cases hr.symm.trans hroots
  exact ⟨htolerance, ⟨_, hm, hm', rfl⟩, ⟨_, hr, hr', rfl⟩⟩

end Block

end JointProb
