/-
  JointProb — what texts of conditional probabilities describe.

  * `NetworkDraft.AfterLine` says what a line does to what has been read;
    `NetworkDraft.afterLine_of_readLine`: one of three things;
  * `NetworkDraft.Sound` holds of what has been read of a network: every
    variable has a choice of states; `NetworkDraft.sound_of_read`: reading keeps
    this, line by line;
  * `NetworkDraft.network_eq_ok_iff`: what makes a network of it;
  * `Distribution.wellFormed_ofNetwork`: a text describes a well-formed
    distribution or none.
-/
import JointProb.Proofs.Network.Basic
import JointProb.Proofs.Spec.Block
import JointProb.Proofs.WellFormed
import JointProb.Spec.Network

namespace JointProb

open Text

/-! ## Reading -/

namespace NetworkDraft

variable {α : Type}

theorem nodup_readStates {line : Nat} {states states' : List String} {labels : List (List Char)}
    (hnodup : states.Nodup)
    (h : (readStates line states labels : Except (SpecError α) (List String)) = .ok states') :
    states'.Nodup := by
  induction labels generalizing states with
  | nil => cases h; exact hnodup
  | cons cs rest ih =>
    simp only [readStates] at h
    split_ifs at h with hempty hseen
    have hnew : ∀ s ∈ states, s ≠ String.ofList cs := fun s hs he => hseen (he ▸ hs)
    exact ih (List.nodup_append.2 ⟨hnodup, List.nodup_singleton _, by simpa using hnew⟩) h

theorem wellFormed_readBody {line : Nat} {body : List Char} {name : String} {states : List String}
    (h : (readBody line body : Except (SpecError α) (List String)) = .ok states) :
    Variable.WellFormed ⟨name, states⟩ := by
  rw [readBody] at h
  split at h
  · cases h
  split at h
  · cases h
  rename_i states' hstates
  split_ifs at h with hlen
  cases h
  exact ⟨nodup_readStates List.nodup_nil hstates, Nat.not_lt.1 hlen⟩

theorem wellFormed_readVariable {line : Nat} {text : List Char} {v : Variable}
    (h : (readVariable line text : Except (SpecError α) Variable) = .ok v) : v.WellFormed := by
  rw [readVariable] at h
  split at h
  · simp only [checkedVariable] at h
    split_ifs at h
    cases h
    exact Variable.wellFormed_boolean _
  · split at h
    · cases h
    rename_i states hstates
    simp only [checkedVariable] at h
    split_ifs at h
    cases h
    exact wellFormed_readBody hstates

/-- Variables are declared one after the other, and names once. -/
theorem of_foldlM_declare {line : Nat} {vs : List Variable} {d d' : NetworkDraft}
    (h : (vs.foldlM (fun d v => d.declare line v) d : Except (SpecError α) NetworkDraft) = .ok d') :
    d' = ⟨d.vars ++ vs, d.blocks⟩ ∧
      ((d.vars.map Variable.name).Nodup → ((d.vars ++ vs).map Variable.name).Nodup) := by
  induction vs generalizing d with
  | nil =>
    cases h
    rw [List.append_nil]
    exact ⟨rfl, id⟩
  | cons v vs ih =>
    obtain ⟨d₁, hv, h⟩ := bind_eq_ok.1 h
    simp only [declare] at hv
    split_ifs at hv with hold
    cases hv
    obtain ⟨rfl, hnodup⟩ := ih h
    rw [List.append_assoc, List.singleton_append] at hnodup ⊢
    refine ⟨rfl, fun hd => hnodup ?_⟩
    rw [List.map_append, List.map_singleton, List.nodup_append_comm, List.singleton_append,
      List.nodup_cons]
    refine ⟨fun hmem => hold ?_, hd⟩
    obtain ⟨w, hw, hname⟩ := List.mem_map.1 hmem
    exact List.any_eq_true.2 ⟨w, hw, beq_iff_eq.2 hname⟩

/-- Whether a line declares variables. -/
def isDeclaration (content : List Char) : Bool :=
  (Line.variablesHeader? content).isSome || (declaration? content).isSome

theorem isDeclaration_eq_false_iff {content : List Char} : isDeclaration content = false ↔
    Line.variablesHeader? content = none ∧ declaration? content = none := by
  rw [isDeclaration, Bool.or_eq_false_iff, Option.isSome_eq_false_iff, Option.isSome_eq_false_iff,
    Option.isNone_iff_eq_none, Option.isNone_iff_eq_none]

/-- What a line does to what has been read. -/
inductive AfterLine (α : Type) (d : NetworkDraft) (line : Nat) (content : List Char) :
    NetworkDraft → Prop
  /-- In front of all blocks it declares variables. -/
  | declared {vs : List Variable} (hdecl : isDeclaration content = true) (hfront : d.blocks = [])
    (hvs : ∀ v ∈ vs, v.WellFormed)
    (hnodup : (d.vars.map Variable.name).Nodup → ((d.vars ++ vs).map Variable.name).Nodup) :
    AfterLine α d line content ⟨d.vars ++ vs, []⟩
  /-- It opens the block of a variable that has none. -/
  | opened {child : Nat} {parents : List Nat} (hdecl : isDeclaration content = false)
    (hread : (d.readHeader line content : Except (SpecError α) _) = .ok (some (child, parents)))
    (hnew : ∀ b ∈ d.blocks, b.child ≠ child) :
    AfterLine α d line content ⟨d.vars, ⟨child, parents, line, []⟩ :: d.blocks⟩
  /-- It adds an entry to the open block. -/
  | added {b : Block} {blocks : List Block} {key value : List Char}
    (hdecl : isDeclaration content = false)
    (hread : (d.readHeader line content : Except (SpecError α) _) = .ok none)
    (hblocks : d.blocks = b :: blocks) (hcut : cut? [':'] content = some (key, value)) :
    AfterLine α d line content
      ⟨d.vars, { b with entries := b.entries ++ [⟨line, trim key, trim value⟩] } :: blocks⟩

theorem blocks_of_checkDeclaring {d : NetworkDraft} {line : Nat}
    (h : (d.checkDeclaring line : Except (SpecError α) Unit) = .ok ()) : d.blocks = [] := by
  rw [checkDeclaring] at h
  split_ifs at h with hempty
  exact List.isEmpty_iff.1 hempty

/-- **What a line that is read does.** -/
theorem afterLine_of_readLine {d d' : NetworkDraft} {line : Nat} {content : List Char}
    (h : (d.readLine line content : Except (SpecError α) NetworkDraft) = .ok d') :
    d.AfterLine α line content d' := by
  have hdeclared (vs : List Variable) (hdecl : isDeclaration content = true)
      (hcheck : (d.checkDeclaring line : Except (SpecError α) Unit) = .ok ())
      (hvs : ∀ v ∈ vs, v.WellFormed)
      (hfold : (vs.foldlM (fun d v => d.declare line v) d : Except (SpecError α) NetworkDraft) =
        .ok d') : d.AfterLine α line content d' := by
    obtain ⟨rfl, hnodup⟩ := of_foldlM_declare hfold
    rw [blocks_of_checkDeclaring hcheck]
    exact .declared hdecl (blocks_of_checkDeclaring hcheck) hvs hnodup
  rw [readLine] at h
  cases hheader : Line.variablesHeader? content with
  | some rest =>
    simp only [hheader, bind_eq_ok] at h
    obtain ⟨_, hcheck, names, -, h⟩ := h
    refine hdeclared (names.map .boolean) (by simp [isDeclaration, hheader]) hcheck ?_
      (by rwa [List.foldlM_map])
    exact List.forall_mem_map.2 fun name _ => Variable.wellFormed_boolean name
  | none =>
    cases hdeclaration : declaration? content with
    | some text =>
      simp only [hheader, hdeclaration, bind_eq_ok] at h
      obtain ⟨v, hv, _, hcheck, h⟩ := h
      exact hdeclared [v] (by simp [isDeclaration, hdeclaration]) hcheck
        (List.forall_mem_singleton.2 (wellFormed_readVariable hv)) (bind_eq_ok.2 ⟨d', h, rfl⟩)
    | none =>
      have hdecl := isDeclaration_eq_false_iff.2 ⟨hheader, hdeclaration⟩
      simp only [hheader, hdeclaration] at h
      split_ifs at h
      split at h
      · cases h
      · next child parents hread =>
        rw [openBlock] at h
        split_ifs at h with hold
        cases h
        exact .opened hdecl hread (by simpa using hold)
      · next hread =>
        rw [readEntry] at h
        split at h
        · cases h
        next b blocks hblocks =>
        split at h
        · cases h
        next key value hcut =>
        cases h
        exact .added hdecl hread hblocks hcut

/-- Every variable has a choice of states. -/
def Sound (d : NetworkDraft) : Prop := ∀ v ∈ d.vars, v.WellFormed

theorem sound_readLine {d d' : NetworkDraft} {line : Nat} {content : List Char} (hd : d.Sound)
    (h : (d.readLine line content : Except (SpecError α) NetworkDraft) = .ok d') : d'.Sound := by
  cases afterLine_of_readLine h with
  | declared _ _ hvs _ => exact List.forall_mem_append.2 ⟨hd, hvs⟩
  | opened => exact hd
  | added => exact hd

/-- **What is read of a network is sound.** -/
theorem sound_of_read {text : String} {d : NetworkDraft}
    (h : (read text : Except (SpecError α) NetworkDraft) = .ok d) : d.Sound :=
  foldlM_invariant (fun _ _ _ hs hstep => sound_readLine hs hstep)
    (fun _ hv => absurd hv List.not_mem_nil) h

/-- **What makes a network of a draft**: a catalog, a block for each variable,
    and nodes that are accepted. -/
theorem network_eq_ok_iff [Scalar α] {d : NetworkDraft} {settings : Settings α} {n : Network α} :
    d.network settings = .ok n ↔ d.vars ≠ [] ∧ ∃ c nodes,
      Catalog.ofVariables d.vars settings.maxAssignments = (.ok c : Except (SpecError α) Catalog) ∧
      d.checkBlocks c = (.ok () : Except (SpecError α) Unit) ∧
      d.blocks.reverse.mapM (fun b => b.node c settings) = .ok nodes ∧
      Network.ofNodes c nodes = .ok n := by
  rw [network]
  split_ifs with hempty
  · refine iff_of_false (by simp) fun h => h.1 (by simpa using hempty)
  · simp only [bind_eq_ok]
    constructor
    · rintro ⟨c, hc, _, hcheck, nodes, hnodes, h⟩
      exact ⟨by simpa using hempty, c, nodes, hc, hcheck, hnodes, h⟩
    · rintro ⟨-, c, nodes, hc, hcheck, hnodes, h⟩
      exact ⟨c, hc, (), hcheck, nodes, hnodes, h⟩

/-- **A draft describes a network of probabilities over a well-formed
    catalog.** -/
theorem of_network {d : NetworkDraft} (hd : d.Sound) {settings : Settings ℚ} {n : Network ℚ}
    (h : d.network settings = .ok n) : n.catalog.WellFormed settings.maxAssignments ∧
      ∀ m ∈ n.nodes, ∀ p ∈ m.table, IsProbability p := by
  obtain ⟨hne, c, nodes, hc, -, hnodes, h⟩ := network_eq_ok_iff.1 h
  obtain ⟨rfl, hmem, -⟩ := Network.of_ofNodes h
  refine ⟨Catalog.wellFormed_of_ofVariables hne hd hc, fun m hm => ?_⟩
  obtain ⟨b, -, hb⟩ := exists_of_mem_of_mapM hnodes (hmem m hm)
  exact Block.isProbability_node hb

theorem wellFormed_of_network [Scalar α] {d : NetworkDraft} {settings : Settings α}
    {n : Network α} (h : d.network settings = .ok n) : n.WellFormed := by
  obtain ⟨-, _, _, -, -, -, h⟩ := network_eq_ok_iff.1 h
  exact (Network.of_ofNodes h).2.2

end NetworkDraft

/-! ## The distribution -/

theorem Distribution.wellFormed_rename {d d' : Distribution ℚ} {names : Option (List String)}
    {cap : Nat} (hd : d.WellFormed cap) (h : d.rename names = .ok d') : d'.WellFormed cap := by
  cases names with
  | none => cases h; exact hd
  | some names =>
    simp only [rename] at h
    split_ifs at h with hlen
    · exact hd.withNames hlen h
    · cases h; exact hd

/-- **A text of conditional probabilities describes a well-formed distribution
    or none.** -/
theorem Distribution.wellFormed_ofNetwork {settings : Settings ℚ} {names : Option (List String)}
    {text : String} {d : Distribution ℚ} (h : ofNetwork settings names text = .ok d) :
    d.WellFormed settings.maxAssignments := by
  simp only [ofNetwork, bind_eq_ok] at h
  obtain ⟨n, hn, e, he, h⟩ := h
  obtain ⟨draft, hdraft, hn⟩ := bind_eq_ok.1 hn
  obtain ⟨hcatalog, hnodes⟩ := NetworkDraft.of_network (NetworkDraft.sound_of_read hdraft) hn
  obtain ⟨hc, order, -, hprobs⟩ := Network.expand_eq_ok_iff.1 he
  have hwf : e.WellFormed settings.maxAssignments :=
    wellFormed_of_normalizeWithin (hc ▸ hcatalog)
      (Network.nonneg_weights (fun m hm p hp => (hnodes m hm p hp).1) order) hprobs
  exact wellFormed_rename hwf h

end JointProb
