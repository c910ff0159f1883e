/-
  JointProb — what every accepted text of conditional probabilities
  describes.

  * `NetworkDraft.ParentsDistinct` holds of what has been read of a network;
    `NetworkDraft.parentsDistinct_of_read`: reading keeps it, line by line;
  * `Network.IsBayesian` says that a network has what a Bayesian network over
    the declared variables has;
  * `Network.isBayesian_of_ofText`: whatever a text says, it describes such a
    network or none.
-/
import JointProb.Proofs.Network.Acyclic
import JointProb.Proofs.Spec.BlockRows
import JointProb.Proofs.Spec.Network

namespace JointProb

/-! ## Reading -/

namespace NetworkDraft

variable {α : Type} {d d' : NetworkDraft} {line : Nat}

/-- No block lists a parent twice. -/
def ParentsDistinct (d : NetworkDraft) : Prop := ∀ b ∈ d.blocks, b.parents.Nodup

theorem nodup_readParents {child : Nat} {parents parents' : List Nat} {names : List (List Char)}
    (hnodup : parents.Nodup)
    (h : (d.readParents line child parents names : Except (SpecError α) (List Nat)) =
      .ok parents') : parents'.Nodup := by
  induction names generalizing parents with
  | nil => cases h; exact hnodup
  | cons name names ih =>
    rw [readParents] at h
    split at h
    · cases h
    rename_i p _
    split_ifs at h with hmem
    refine ih (List.nodup_append.2 ⟨hnodup, List.nodup_singleton p, ?_⟩) h
    intro q hq r hr he
    rw [List.mem_singleton.1 hr] at he
    exact hmem (he ▸ hq)

theorem nodup_readHeader {content : List Char} {child : Nat} {parents : List Nat}
    (h : (d.readHeader line content : Except (SpecError α) (Option (Nat × List Nat))) =
      .ok (some (child, parents))) : parents.Nodup := by
  rw [readHeader] at h
  split at h
  · split at h
    · cases h
    · obtain ⟨ps, hps, he⟩ := map_eq_ok.1 h
      cases he
      exact nodup_readParents List.nodup_nil hps
  · split at h
    · cases h
    simp only at h
    split at h
    · cases h
    split_ifs at h
    · obtain ⟨ps, hps, he⟩ := map_eq_ok.1 h
      cases he
      exact nodup_readParents List.nodup_nil hps
    · cases h

/-- One more line. -/
theorem parentsDistinct_readLine {content : List Char} (hd : d.ParentsDistinct)
    (h : (d.readLine line content : Except (SpecError α) NetworkDraft) = .ok d') :
    d'.ParentsDistinct := by
  cases afterLine_of_readLine h with
  | declared => exact fun b hb => absurd hb List.not_mem_nil
  | opened _ hread _ => exact List.forall_mem_cons.2 ⟨nodup_readHeader hread, hd⟩
  | added _ _ hblocks _ =>
    -- the open block has one more entry and the same parents
    rw [ParentsDistinct, hblocks, List.forall_mem_cons] at hd
    exact List.forall_mem_cons.2 hd

/-- **No block of a text lists a parent twice.** -/
theorem parentsDistinct_of_read {text : String}
    (h : (read text : Except (SpecError α) NetworkDraft) = .ok d) : d.ParentsDistinct :=
  foldlM_invariant (fun _ _ _ hs hstep => parentsDistinct_readLine hs hstep)
    (fun _ hb => absurd hb List.not_mem_nil) h

end NetworkDraft

/-! ## Networks -/

namespace Network

variable {settings : Settings ℚ} {d : NetworkDraft} {n : Network ℚ}

/-- A network over the declared variables, with what a Bayesian network has. -/
structure IsBayesian (settings : Settings ℚ) (d : NetworkDraft) (n : Network ℚ) : Prop where
  /-- The variables are those that are declared. -/
  vars_eq : n.catalog.vars = d.vars
  /-- There is one node for each of them, at its place. -/
  length_nodes : n.nodes.length = n.catalog.vars.length
  child_eq {i : Nat} {m : Node ℚ} (h : n.nodes[i]? = some m) : m.child = i
  /-- The parents of a node are different variables. -/
  parents_nodup {m : Node ℚ} (h : m ∈ n.nodes) : m.parents.Nodup
  parents_lt {m : Node ℚ} (h : m ∈ n.nodes) : ∀ p ∈ m.parents, p < n.catalog.vars.length
  /-- Its table has an entry for each state and each assignment to the parents,
      and all of them are probabilities. -/
  length_table {m : Node ℚ} (h : m ∈ n.nodes) : m.table.length =
    (m.parents.map n.catalog.cardinalityAt).prod * n.catalog.cardinalityAt m.child
  isProbability {m : Node ℚ} (h : m ∈ n.nodes) : ∀ p ∈ m.table, IsProbability p
  /-- It comes from a block of the variable: from shorthand its rows have the
      sum one, from full notation within the tolerance. -/
  exists_block {m : Node ℚ} (h : m ∈ n.nodes) :
    ∃ b ∈ d.blocks, b.child = m.child ∧ b.parents = m.parents ∧
      (((b.isShorthand n.catalog : Except (SpecError ℚ) Bool) = .ok true ∧
          ∀ ps ∈ m.rows n.catalog, ps.sum = 1) ∨
        ((b.isShorthand n.catalog : Except (SpecError ℚ) Bool) = .ok false ∧
          ∀ ps ∈ m.rows n.catalog, |ps.sum - 1| ≤ settings.tolerances.sum))
  /-- No variable is among its parents, their parents and so on. -/
  acyclic : n.Acyclic
  /-- So there is no circle to be reported when the tables are multiplied out,
      under whatever settings. -/
  expand_ne_cyclic (settings' : Settings ℚ) (names : List String) :
    n.expand settings' ≠ .error (.cyclic names)

/-- A network with an order is multiplied out, or has a sum that cannot be
    scaled to one. -/
theorem WellFormed.expand_ne_cyclic (hn : n.WellFormed) (settings : Settings ℚ)
    (names : List String) : n.expand settings ≠ .error (.cyclic names) := by
  intro h
  obtain ⟨order, horder⟩ := hn.exists_order
  rw [expand] at h
  split at h
  · rename_i e he
    cases he.symm.trans horder
  · split at h <;> cases h

/-- **A draft with distinct parents describes a Bayesian network.** -/
theorem isBayesian_of_network (hsound : d.Sound) (hd : d.ParentsDistinct)
    (h : d.network settings = .ok n) : n.IsBayesian settings d := by
  have hprobability := (NetworkDraft.of_network hsound h).2
  obtain ⟨-, c, nodes, hc, -, hnodes, h⟩ := NetworkDraft.network_eq_ok_iff.1 h
  obtain ⟨rfl, hmem, hn⟩ := of_ofNodes h
  have hblock : ∀ m ∈ n.nodes, ∃ b ∈ d.blocks, b.node n.catalog settings = .ok m := by
    intro m hm
    obtain ⟨b, hb, hbm⟩ := exists_of_mem_of_mapM hnodes (hmem m hm)
    exact ⟨b, List.mem_reverse.1 hb, hbm⟩
  refine
    { vars_eq := (Catalog.ofVariables_eq_ok_iff.1 hc).1
      length_nodes := hn.length_nodes
      child_eq := hn.child_eq
      parents_nodup := fun {m} hm => ?_
      parents_lt := hn.parents_lt
      length_table := fun {m} hm => ?_
      isProbability := fun hm => hprobability _ hm
      exists_block := fun {m} hm => ?_
      acyclic := hn.acyclic
      expand_ne_cyclic := hn.expand_ne_cyclic }
  · obtain ⟨b, hb, hbm⟩ := hblock m hm
    rw [(Block.of_node hbm).2.1]
    exact hd b hb
  · obtain ⟨b, -, hbm⟩ := hblock m hm
    obtain ⟨hchild, hparents, hkind⟩ := Block.of_node hbm
    have hlength : m.table.length = m.rowCount n.catalog * n.catalog.cardinalityAt m.child := by
      rcases hkind with ⟨-, hrows⟩ | ⟨-, hrows⟩
      · exact (Node.rows_of_hasRows hchild hparents hrows).1
      · exact (Node.rows_of_hasRows hchild hparents hrows).1
    rw [hlength, Node.rowCount, MixedRadix.size_eq_prod, Node.radices]
  · obtain ⟨b, hb, hbm⟩ := hblock m hm
    obtain ⟨hchild, hparents, hkind⟩ := Block.of_node hbm
    refine ⟨b, hb, hchild.symm, hparents.symm, hkind.imp ?_ ?_⟩
    · rintro ⟨hshort, hrows⟩
      exact ⟨hshort, (Node.rows_of_hasRows hchild hparents hrows).2⟩
    · rintro ⟨hfull, hrows⟩
      exact ⟨hfull, (Node.rows_of_hasRows hchild hparents hrows).2⟩

/-- **Texts describe Bayesian networks**, however they are written. -/
theorem isBayesian_of_ofText {text : String} (h : ofText settings text = .ok n) :
    ∃ d, (NetworkDraft.read text : Except (SpecError ℚ) NetworkDraft) = .ok d ∧
      n.IsBayesian settings d := by
  obtain ⟨d, hread, hn⟩ := bind_eq_ok.1 h
  exact ⟨d, hread, isBayesian_of_network (NetworkDraft.sound_of_read hread)
    (NetworkDraft.parentsDistinct_of_read hread) hn⟩

/-- Both notations, the blocks not in the order of the variables, and a row a
    little above one. -/
theorem isBayesian_of_ofText_mixed :
    let text := "variables: Rain, Late\nvariable Sky \x7bClear, Grey, Dark\x7d\n" ++
      "Late: Sky, Rain\n(0 | Clear, 0): 1\n(1 | 0, 0): 0\n(0 | Clear, 1): .5\n(1 | Clear, 1): .5\n" ++
      "(0 | Grey, 0): 0.9\n(1 | Grey, 0): 0.1\n(0 | Grey, 1): 0.8\n(1 | Grey, 1): 0.2\n" ++
      "(0 | Dark, 0): 0.7\n(1 | Dark, 0): 0.3000001\n(0 | Dark, 1): 0.25\n(1 | Dark, 1): 0.75\n" ++
      "Sky <- None\nClear: 0.5\nDark: 0.2\nGrey: 0.3\nRain:\n0: 0.7"
    let n : Network ℚ :=
      ⟨.of [.boolean "Rain", .boolean "Late", ⟨"Sky", ["Clear", "Grey", "Dark"]⟩],
        [⟨0, [], [7 / 10, 3 / 10]⟩,
          ⟨1, [2, 0], [1, 0, 1 / 2, 1 / 2, 9 / 10, 1 / 10, 8 / 10, 2 / 10, 7 / 10,
            3000001 / 10000000, 1 / 4, 3 / 4]⟩,
          ⟨2, [], [1 / 2, 3 / 10, 2 / 10]⟩]⟩
    ofText .default text = .ok n ∧
      ∃ d, (NetworkDraft.read text : Except (SpecError ℚ) NetworkDraft) = .ok d ∧
        n.IsBayesian .default d := by
  intro text n
  have h : (ofText .default text).toOption = some n := by
    simp only [ofText, NetworkDraft.read, Line.numbered, text, String.toList_append]
    decide +kernel
  have hok := toOption_eq_some.1 h
  exact ⟨hok, isBayesian_of_ofText hok⟩

end Network

end JointProb
