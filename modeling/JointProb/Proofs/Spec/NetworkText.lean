/-
  JointProb — networks written out and read again.

  * `Network.written` declares the variables and writes a block for each, the
    blocks and the entries of a block in any order;
  * `NetworkDraft.readLines_declarations`, `readLines_block` and
    `readLines_blocks`: what is read of such a text, line by line;
  * `Network.ofText_written`: the text describes the network.
-/
import JointProb.Proofs.Catalog.InStep
import JointProb.Proofs.Spec.Family
import JointProb.Proofs.Spec.NetworkReader

namespace JointProb

open Text
open Decimal (Literal)

variable {α : Type}

/-! ## Their texts -/

/-- The name of a variable. -/
def Catalog.nameAt (c : Catalog) (i : Nat) : String := (c.names[i]?).getD ""

namespace Node

variable (c : Catalog) (m : Node α)

/-- The header of the block of a node. -/
def header : NetworkLine := .header (c.nameAt m.child) (m.parents.map c.nameAt)

variable [Zero α] (number : α → List Char)

theorem getD_mem_table {i : Nat} (hi : i < m.table.length) : (m.table[i]?).getD 0 ∈ m.table := by
  rw [List.getElem?_eq_getElem hi]
  exact List.getElem_mem hi

/-- The entry for a place of the table. -/
def entryLine (i : Nat) : NetworkLine :=
  .entry (m.stateLabel c i) (m.parentLabels c i) (number ((m.table[i]?).getD 0))

/-- The block with the entries for some places. -/
def block (places : List Nat) : List NetworkLine :=
  m.header c :: places.map (m.entryLine c number)

end Node

namespace Network

variable (n : Network α)

/-- Blocks for all nodes, with entries for all places of their tables, each in
    some order. -/
structure IsLayout (blocks : List (Node α × List Nat)) : Prop where
  perm : (blocks.map Prod.fst).Perm n.nodes
  places : ∀ b ∈ blocks, b.2.Perm (List.range b.1.table.length)

theorem IsLayout.mem_nodes {n : Network α} {blocks : List (Node α × List Nat)}
    (h : n.IsLayout blocks) {b : Node α × List Nat} (hb : b ∈ blocks) : b.1 ∈ n.nodes :=
  h.perm.mem_iff.1 (List.mem_map_of_mem hb)

theorem IsLayout.place_lt {n : Network α} {blocks : List (Node α × List Nat)}
    (h : n.IsLayout blocks) {b : Node α × List Nat} (hb : b ∈ blocks) :
    ∀ i ∈ b.2, i < b.1.table.length :=
  fun _ hi => List.mem_range.1 ((h.places b hb).mem_iff.1 hi)

variable [Zero α] (number : α → List Char) (blocks : List (Node α × List Nat))

/-- The lines of the text: declarations in the order of the catalog, then the
    blocks. -/
def writtenLines : List NetworkLine :=
  n.catalog.vars.map .declaration ++ blocks.flatMap fun b => b.1.block n.catalog number b.2

/-- The text. -/
def written : String :=
  String.ofList (['\n'].intercalate ((n.writtenLines number blocks).map NetworkLine.written))

end Network

/-- What is written for a number is read as the number. -/
def ReadsBack [Scalar α] (number : α → List Char) (p : α) : Prop :=
  (Literal.read? (number p)).bind Scalar.ofLiteral? = some p

instance [Scalar α] [DecidableEq α] (number : α → List Char) (p : α) :
    Decidable (ReadsBack number p) :=
  inferInstanceAs (Decidable (_ = _))

namespace ReadsBack

variable [Scalar α] {number : α → List Char} {p : α}

theorem exists_finite (h : ReadsBack number p) :
    ∃ negative digits exponent,
      Literal.read? (number p) = some (.finite negative digits exponent) := by
  obtain ⟨l, hl, hp⟩ := Option.bind_eq_some_iff.1 h
  cases l with
  | finite negative digits exponent => exact ⟨negative, digits, exponent, hl⟩
  | infinite => cases hp
  | notANumber => cases hp

theorem ne_nil (h : ReadsBack number p) : number p ≠ [] := by
  obtain ⟨_, _, _, hread⟩ := h.exists_finite
  exact Literal.ne_nil_of_read? hread

theorem forall_inNumber (h : ReadsBack number p) : ∀ c ∈ number p, Literal.inNumber c := by
  obtain ⟨_, _, _, hread⟩ := h.exists_finite
  exact Literal.forall_inNumber hread

theorem probability_eq_ok (h : ReadsBack number p) (hp : Scalar.isFinite p ∧ 0 ≤ p ∧ p ≤ 1)
    (line : Nat) : Line.probability line (number p) = .ok p := by
  have htrim : trim (number p) = number p :=
    trim_eq_self_of_forall fun c hc => Literal.isBlank_of_inNumber (h.forall_inNumber c hc)
  exact Line.probability_eq_ok (htrim.symm ▸ h) hp

end ReadsBack

/-! ## Contents -/

namespace Catalog.Spellable

variable {c : Catalog}

theorem isIdentifier_nameAt (h : c.Spellable) {i : Nat} (hi : i < c.vars.length) :
    JointProb.isIdentifier (c.nameAt i) := by
  have hname : c.nameAt i = c.vars[i].name := by simp [nameAt, names, hi]
  rw [hname]
  exact h.isIdentifier _ (List.getElem_mem hi)

end Catalog.Spellable

namespace Network

variable [Scalar α] {settings : Settings α} {n : Network α} {number : α → List Char}
  {blocks : List (Node α × List Nat)}

theorem Family.isWritable_header (h : n.Family settings) {m : Node α} (hm : m ∈ n.nodes) :
    (m.header n.catalog).IsWritable := by
  refine .header (h.spellable.isIdentifier_nameAt (h.child_lt hm)) fun p hp => ?_
  obtain ⟨i, hi, rfl⟩ := List.mem_map.1 hp
  exact h.spellable.isIdentifier_nameAt (h.parents_lt m hm i hi)

theorem Family.isWritable_entryLine (h : n.Family settings) {m : Node α} (hm : m ∈ n.nodes)
    (hnumber : ∀ p ∈ m.table, ReadsBack number p) {i : Nat} (hi : i < m.table.length) :
    (m.entryLine n.catalog number i).IsWritable := by
  have hplace := h.length_table m hm ▸ hi
  have hentry := m.getD_mem_table hi
  exact .entry (Node.isLabel_stateLabel h.spellable.isLabel hplace)
    (Node.isLabel_parentLabels h.spellable.isLabel hplace) (hnumber _ hentry).ne_nil
    (hnumber _ hentry).forall_inNumber

/-- All lines of the text can be written. -/
theorem Family.isWritable (h : n.Family settings) (hblocks : n.IsLayout blocks)
    (hnumber : ∀ m ∈ n.nodes, ∀ p ∈ m.table, ReadsBack number p) :
    ∀ l ∈ n.writtenLines number blocks, l.IsWritable := by
  intro l hl
  rcases List.mem_append.1 hl with hl | hl
  · obtain ⟨v, hv, rfl⟩ := List.mem_map.1 hl
    exact .declaration (h.spellable.isIdentifier v hv) (h.spellable.isLabel v hv)
  · obtain ⟨b, hb, hl⟩ := List.mem_flatMap.1 hl
    have hm := hblocks.mem_nodes hb
    rcases List.mem_cons.1 hl with rfl | hl
    · exact h.isWritable_header hm
    · obtain ⟨i, hi, rfl⟩ := List.mem_map.1 hl
      exact h.isWritable_entryLine hm (hnumber b.1 hm) (hblocks.place_lt hb i hi)

/-- The contents of the text are its lines. -/
theorem Family.map_snd_numbered (h : n.Family settings) (hblocks : n.IsLayout blocks)
    (hnumber : ∀ m ∈ n.nodes, ∀ p ∈ m.table, ReadsBack number p) :
    (Line.numbered (n.written number blocks)).map Prod.snd =
      (n.writtenLines number blocks).map NetworkLine.written := by
  have hwritable := h.isWritable hblocks hnumber
  refine Line.map_snd_numbered ?_ ?_ ?_
  · simp [writtenLines, h.vars_ne_nil]
  · intro l hl
    obtain ⟨x, hx, rfl⟩ := List.mem_map.1 hl
    exact NetworkLine.notMem_written (hwritable x hx) (by decide) (by decide)
  · intro l hl
    obtain ⟨x, hx, rfl⟩ := List.mem_map.1 hl
    exact NetworkLine.content?_written (hwritable x hx)

end Network

/-! ## Reading -/

/-- A block that has been read of a written one. -/
structure Block.IsOf [Zero α] (c : Catalog) (number : α → List Char) (b : Block)
    (x : Node α × List Nat) : Prop where
  child_eq : b.child = x.1.child
  parents_eq : b.parents = x.1.parents
  entries : List.Forall₂ (fun e i =>
    e.key = NetworkLine.key (x.1.stateLabel c i) (x.1.parentLabels c i) ∧
      e.value = number ((x.1.table[i]?).getD 0)) b.entries x.2

/-- One more entry. -/
theorem Block.IsOf.append [Zero α] {c : Catalog} {number : α → List Char} {b : Block} {m : Node α}
    {places : List Nat} (h : b.IsOf c number (m, places)) (line i : Nat) :
    Block.IsOf c number { b with entries := b.entries ++ [⟨line, NetworkLine.key (m.stateLabel c i)
      (m.parentLabels c i), number ((m.table[i]?).getD 0)⟩] } (m, places ++ [i]) :=
  ⟨h.child_eq, h.parents_eq, List.rel_append h.entries (.cons ⟨rfl, rfl⟩ .nil)⟩

namespace NetworkDraft

/-- Read further lines. -/
def readLines (d : NetworkDraft) (ls : List (Nat × List Char)) :
    Except (SpecError α) NetworkDraft :=
  ls.foldlM (fun d (line, content) => d.readLine line content) d

theorem readLines_cons {d d' : NetworkDraft} {line : Nat} {content : List Char}
    (h : (d.readLine line content : Except (SpecError α) NetworkDraft) = .ok d')
    (ls : List (Nat × List Char)) :
    (d.readLines ((line, content) :: ls) : Except (SpecError α) NetworkDraft) =
      d'.readLines ls := by
  simp only [readLines, List.foldlM_cons, h]
  rfl

theorem readLines_append {d d' : NetworkDraft} {ls : List (Nat × List Char)}
    (h : (d.readLines ls : Except (SpecError α) NetworkDraft) = .ok d')
    (ls' : List (Nat × List Char)) :
    (d.readLines (ls ++ ls') : Except (SpecError α) NetworkDraft) = d'.readLines ls' := by
  rw [readLines] at h
  rw [readLines, List.foldlM_append, h]
  rfl

theorem readLines_concat_eq_ok_iff {d d' : NetworkDraft} {ls : List (Nat × List Char)}
    {l : Nat × List Char} :
    (d.readLines (ls ++ [l]) : Except (SpecError α) NetworkDraft) = .ok d' ↔
      ∃ d₁, (d.readLines ls : Except (SpecError α) NetworkDraft) = .ok d₁ ∧
        (d₁.readLine l.1 l.2 : Except (SpecError α) NetworkDraft) = .ok d' := by
  simp only [readLines, List.foldlM_append, List.foldlM_cons, List.foldlM_nil, bind_pure,
    bind_eq_ok]

theorem nameOf_eq_nameAt {d : NetworkDraft} {c : Catalog} (h : d.vars = c.vars) (i : Nat) :
    d.nameOf i = c.nameAt i := by
  simp [nameOf, Catalog.nameAt, Catalog.names, h]

/-- **Declarations are read one after the other.** -/
theorem readLines_declarations {vs : List Variable} {ls : List (Nat × List Char)}
    (hls : ls.map Prod.snd = vs.map NetworkLine.declarationText) {d : NetworkDraft}
    (hd : d.blocks = []) (hc : (Catalog.of (d.vars ++ vs)).Spellable)
    (hne : ∀ v ∈ vs, "" ∉ v.states) :
    (d.readLines ls : Except (SpecError α) NetworkDraft) = .ok ⟨d.vars ++ vs, []⟩ := by
  induction vs generalizing ls d with
  | nil =>
    obtain rfl := List.map_eq_nil_iff.1 hls
    rw [List.append_nil, ← hd]
    rfl
  | cons v vs ih =>
    obtain ⟨⟨line, _⟩, ls, rfl, rfl, hrest⟩ := List.map_eq_cons_iff.1 hls
    obtain ⟨hv, hvs⟩ := List.forall_mem_cons.1 hne
    have hmem : v ∈ (Catalog.of (d.vars ++ v :: vs)).vars := by simp
    have hnew : v.name ∉ d.vars.map Variable.name := by
      have hnodup := hc.nodup_names
      rw [Catalog.names_of, List.map_append] at hnodup
      exact fun hold => List.disjoint_of_nodup_append hnodup hold (by simp)
    have hstep := readLine_declaration (α := α) hd (hc.isIdentifier v hmem) (hc.isLabel v hmem) hv
      (hc.nodup_states v hmem) (hc.two_le v hmem) hnew line
    have hshift : d.vars ++ v :: vs = d.vars ++ [v] ++ vs := by simp
    rw [readLines_cons hstep, hshift]
    exact ih hrest hd (hshift ▸ hc) hvs

/-- No table is missing if there is a block for each variable. -/
theorem checkBlocks_eq_ok_iff {d : NetworkDraft} {c : Catalog} (hc : c.InStep) :
    (d.checkBlocks c : Except (SpecError α) Unit) = .ok () ↔
      ∀ i < c.vars.length, ∃ b ∈ d.blocks, b.child = i := by
  rw [← hc.forall_index_iff, checkBlocks]
  split
  · next v hfound =>
    refine iff_of_false (by simp) fun hall => ?_
    obtain ⟨b, hb, hchild⟩ := hall v (List.mem_of_find?_eq_some hfound)
    have hnone := List.find?_some hfound
    simp only [Bool.not_eq_true', List.any_eq_false, beq_iff_eq] at hnone
    exact hnone b hb hchild
  · next hnone =>
    refine iff_of_true rfl fun v hv => ?_
    simpa using List.find?_eq_none.1 hnone v hv

/-- With a block for each variable no table is missing. -/
theorem checkBlocks_eq_ok {c : Catalog} (hc : c.InStep) {bs : List Block}
    (h : ∀ i < c.vars.length, ∃ b ∈ bs, b.child = i) :
    (mk c.vars bs.reverse).checkBlocks c = (.ok () : Except (SpecError α) Unit) := by
  refine (checkBlocks_eq_ok_iff hc).2 fun i hi => ?_
  obtain ⟨b, hb, hbi⟩ := h i hi
  exact ⟨b, List.mem_reverse.2 hb, hbi⟩

variable [Scalar α] {settings : Settings α} {n : Network α} {number : α → List Char}

/-- **Entries are added to the open block one after the other.** -/
theorem readLines_entries (h : n.Family settings) {m : Node α} (hm : m ∈ n.nodes)
    (hnumber : ∀ p ∈ m.table, ReadsBack number p) {places : List Nat}
    (hplaces : ∀ i ∈ places, i < m.table.length) {ls : List (Nat × List Char)}
    (hls : ls.map Prod.snd = places.map fun i => (m.entryLine n.catalog number i).written)
    {d : NetworkDraft} (hd : d.vars = n.catalog.vars) {b : Block} {blocks : List Block}
    (hblocks : d.blocks = b :: blocks) {before : List Nat}
    (hb : b.IsOf n.catalog number (m, before)) :
    ∃ b', (d.readLines ls : Except (SpecError α) NetworkDraft) =
        .ok { d with blocks := b' :: blocks } ∧
      b'.IsOf n.catalog number (m, before ++ places) := by
  induction places generalizing ls d b before with
  | nil =>
    obtain rfl := List.map_eq_nil_iff.1 hls
    rw [List.append_nil]
    exact ⟨b, by rw [← hblocks]; rfl, hb⟩
  | cons i places ih =>
    obtain ⟨⟨line, _⟩, ls, rfl, rfl, hrest⟩ := List.map_eq_cons_iff.1 hls
    obtain ⟨hi, hplaces⟩ := List.forall_mem_cons.1 hplaces
    have hwritable := h.isWritable_entryLine hm hnumber hi
    obtain ⟨hstate, hstates, hvalue⟩ : IsLabel (m.stateLabel n.catalog i) ∧
        (∀ l ∈ m.parentLabels n.catalog i, IsLabel l) ∧
        ∀ c ∈ number ((m.table[i]?).getD 0), Literal.inNumber c := by
      cases hwritable with
      | entry hstate hstates _ hvalue => exact ⟨hstate, hstates, hvalue⟩
    have hstep := readLine_entry (α := α) (fun v hv => h.spellable.isIdentifier v (hd ▸ hv))
      (hd ▸ h.vars_ne_nil) hblocks hstate hstates hvalue line
    obtain ⟨b', hrun, hb'⟩ := ih hplaces hrest (d := { d with blocks := _ :: blocks }) hd rfl
      (hb.append line i)
    refine ⟨b', (readLines_cons hstep ls).trans hrun, ?_⟩
    rwa [List.append_assoc] at hb'

/-- **A header opens a block, and the entries after it are added to it.** -/
theorem readLines_block (h : n.Family settings) {m : Node α} (hm : m ∈ n.nodes)
    (hnumber : ∀ p ∈ m.table, ReadsBack number p) {places : List Nat}
    (hplaces : ∀ i ∈ places, i < m.table.length) {ls : List (Nat × List Char)}
    (hls : ls.map Prod.snd = (m.block n.catalog number places).map NetworkLine.written)
    {d : NetworkDraft} (hd : d.vars = n.catalog.vars) (hfresh : ∀ b ∈ d.blocks, b.child ≠ m.child) :
    ∃ b, (d.readLines ls : Except (SpecError α) NetworkDraft) =
        .ok { d with blocks := b :: d.blocks } ∧
      b.IsOf n.catalog number (m, places) := by
  obtain ⟨⟨line, _⟩, ls, rfl, rfl, hentries⟩ := List.map_eq_cons_iff.1 hls
  have hnames : d.nameOf = n.catalog.nameAt := funext (nameOf_eq_nameAt hd)
  have hopen := readLine_header (α := α) (fun v hv => h.spellable.isIdentifier v (hd ▸ hv))
    (by rw [hd]; exact h.spellable.nodup_names) (by rw [hd]; exact h.child_lt hm)
    (by rw [hd]; exact h.parents_lt m hm) (h.parents_nodup m hm) hfresh line
  rw [hnames] at hopen
  have hempty : Block.IsOf n.catalog number ⟨m.child, m.parents, line, []⟩ (m, []) :=
    ⟨rfl, rfl, .nil⟩
  rw [List.map_map] at hentries
  obtain ⟨b, hrun, hb⟩ := readLines_entries h hm hnumber hplaces hentries
    (d := { d with blocks := ⟨m.child, m.parents, line, []⟩ :: d.blocks }) hd rfl hempty
  exact ⟨b, (readLines_cons hopen ls).trans hrun, hb⟩

/-- **Blocks are read one after the other.** -/
theorem readLines_blocks (h : n.Family settings) {xs : List (Node α × List Nat)}
    (hmem : ∀ x ∈ xs, x.1 ∈ n.nodes)
    (hnumber : ∀ m ∈ n.nodes, ∀ p ∈ m.table, ReadsBack number p)
    (hplaces : ∀ x ∈ xs, ∀ i ∈ x.2, i < x.1.table.length) {ls : List (Nat × List Char)}
    (hls : ls.map Prod.snd =
      (xs.flatMap fun x => x.1.block n.catalog number x.2).map NetworkLine.written)
    {d : NetworkDraft} (hd : d.vars = n.catalog.vars)
    (hnew : ∀ x ∈ xs, ∀ b ∈ d.blocks, b.child ≠ x.1.child)
    (hnodup : (xs.map fun x => x.1.child).Nodup) :
    ∃ bs, (d.readLines ls : Except (SpecError α) NetworkDraft) =
        .ok { d with blocks := bs.reverse ++ d.blocks } ∧
      List.Forall₂ (Block.IsOf n.catalog number) bs xs := by
  induction xs generalizing ls d with
  | nil =>
    obtain rfl := List.map_eq_nil_iff.1 hls
    exact ⟨[], rfl, .nil⟩
  | cons x xs ih =>
    rw [List.flatMap_cons, List.map_append, List.map_eq_append_iff] at hls
    obtain ⟨ls₁, ls₂, rfl, hfirst, hrest⟩ := hls
    obtain ⟨hm, hmem⟩ := List.forall_mem_cons.1 hmem
    obtain ⟨hplace, hplaces⟩ := List.forall_mem_cons.1 hplaces
    obtain ⟨hfresh, hnew⟩ := List.forall_mem_cons.1 hnew
    rw [List.map_cons, List.nodup_cons] at hnodup
    obtain ⟨b, hrun, hb⟩ := readLines_block h hm (hnumber x.1 hm) hplace hfirst hd hfresh
    have hother : ∀ y ∈ xs, ∀ b' ∈ b :: d.blocks, b'.child ≠ y.1.child := by
      refine fun y hy => List.forall_mem_cons.2 ⟨fun heq => hnodup.1 ?_, hnew y hy⟩
      rw [← hb.child_eq, heq]
      exact List.mem_map_of_mem hy
    obtain ⟨bs, hrun', hbs⟩ := ih hmem hplaces hrest (d := { d with blocks := b :: d.blocks }) hd
      hother hnodup.2
    refine ⟨b :: bs, ?_, .cons hb hbs⟩
    rw [readLines_append hrun, hrun']
    simp

/-- **A network that is written out is read.** -/
theorem exists_read_written (h : n.Family settings) (hlabels : ∀ v ∈ n.catalog.vars, "" ∉ v.states)
    {blocks : List (Node α × List Nat)} (hblocks : n.IsLayout blocks)
    (hnumber : ∀ m ∈ n.nodes, ∀ p ∈ m.table, ReadsBack number p) :
    ∃ bs, (read (n.written number blocks) : Except (SpecError α) NetworkDraft) =
        .ok ⟨n.catalog.vars, bs.reverse⟩ ∧
      List.Forall₂ (Block.IsOf n.catalog number) bs blocks := by
  have hcontents := h.map_snd_numbered hblocks hnumber
  rw [Network.writtenLines, List.map_append, List.map_eq_append_iff] at hcontents
  obtain ⟨ls₁, ls₂, hls, hdecls, hrest⟩ := hcontents
  have hnodup : (blocks.map fun x => x.1.child).Nodup := by
    have hperm := hblocks.perm.map Node.child
    rw [List.map_map, h.map_child] at hperm
    exact hperm.nodup_iff.2 List.nodup_range
  rw [List.map_map] at hdecls
  have hspellable : (Catalog.of n.catalog.vars).Spellable := by
    rw [h.spellable.toInStep.of_vars]
    exact h.spellable
  have hvars := readLines_declarations (α := α) (d := empty) hdecls rfl hspellable hlabels
  obtain ⟨bs, hrun, hbs⟩ := readLines_blocks h (fun _ hx => hblocks.mem_nodes hx) hnumber
    (fun _ hx => hblocks.place_lt hx) hrest (d := ⟨n.catalog.vars, []⟩) rfl (by simp) hnodup
  refine ⟨bs, ?_, hbs⟩
  have hread := readLines_append hvars ls₂
  rw [← hls] at hread
  rw [List.append_nil] at hrun
  exact hread.trans hrun

end NetworkDraft

namespace Network

variable [Scalar α] {settings : Settings α} {n : Network α} {number : α → List Char}
  {blocks : List (Node α × List Nat)}

/-- A block that has been read describes its node. -/
theorem Family.node_eq_ok (h : n.Family settings) {b : Block} {x : Node α × List Nat}
    (hm : x.1 ∈ n.nodes) (hplaces : x.2.Perm (List.range x.1.table.length))
    (hnumber : ∀ p ∈ x.1.table, ReadsBack number p) (hb : b.IsOf n.catalog number x) :
    b.node n.catalog settings = .ok x.1 := by
  refine Block.node_eq_ok hb.child_eq hb.parents_eq h.spellable.nodup_states h.spellable.isLabel
    (h.length_table _ hm) hplaces ?_ (h.rows_near _ hm)
  refine forall₂_imp_mem hb.entries fun e _ i hi h' => ⟨h'.1, ?_⟩
  have hentry := x.1.getD_mem_table (List.mem_range.1 (hplaces.mem_iff.1 hi))
  rw [h'.2]
  exact (hnumber _ hentry).probability_eq_ok (h.probabilities _ hm _ hentry) _

/-- **A network that is written out is read back**, whatever its names and
    labels are and in whatever order its blocks and their entries stand. -/
theorem ofText_written (h : n.Family settings) (hword : settings.maxAssignments < wordLimit)
    (hlabels : ∀ v ∈ n.catalog.vars, "" ∉ v.states) (hblocks : n.IsLayout blocks)
    (hnumber : ∀ m ∈ n.nodes, ∀ p ∈ m.table, ReadsBack number p) :
    ofText settings (n.written number blocks) = .ok n := by
  obtain ⟨bs, hread, hbs⟩ := NetworkDraft.exists_read_written h hlabels hblocks hnumber
  have hvars : ¬ n.catalog.vars.isEmpty := by simpa using h.vars_ne_nil
  have hnodes : bs.mapM (fun b => b.node n.catalog settings) = .ok (blocks.map Prod.fst) := by
    refine mapM_eq_ok.2 (List.forall₂_map_right_iff.2 (forall₂_imp_mem hbs fun b _ x hx hbx => ?_))
    have hm := hblocks.mem_nodes hx
    exact h.node_eq_ok hm (hblocks.places x hx) (hnumber _ hm) hbx
  have hcheck : (NetworkDraft.mk n.catalog.vars bs.reverse).checkBlocks n.catalog =
      (.ok () : Except (SpecError α) Unit) := by
    refine NetworkDraft.checkBlocks_eq_ok h.spellable.toInStep fun i hi => ?_
    rw [← h.length_nodes] at hi
    have hnode : n.nodes[i] ∈ blocks.map Prod.fst := hblocks.perm.mem_iff.2 (List.getElem_mem hi)
    obtain ⟨x, hx, hxi⟩ := List.mem_map.1 hnode
    obtain ⟨b, hb, hbx⟩ := exists_left_of_forall₂ hbs hx
    exact ⟨b, hb, by rw [hbx.child_eq, hxi, h.child_eq (List.getElem?_eq_getElem hi)]⟩
  rw [ofText, hread]
  simp only [Except.bind, NetworkDraft.network, if_neg hvars, h.ofVariables_eq_ok hword, hcheck,
    List.reverse_reverse, hnodes, bind, (h.wellFormed hword).ofNodes_eq_ok hblocks.perm]

/-- Names that look like words of the format, labels with parts of an arrow, and
    blocks and entries out of order. -/
theorem ofText_written_words :
    let root : Node ℚ := ⟨0, [], [1/4, 3/4]⟩
    let child : Node ℚ := ⟨1, [0], [1/4, 1/4, 1/2, 0, 1, 0]⟩
    let n : Network ℚ :=
      ⟨.of [⟨"None", ["variable", "0"]⟩, ⟨"variable", ["<", "-", "a b"]⟩], [root, child]⟩
    let blocks := [(child, [5, 0, 2, 4, 1, 3]), (root, [1, 0])]
    let number : ℚ → List Char := fun p =>
      if p = 1/4 then ".25".toList else if p = 3/4 then "75e-2".toList
      else if p = 1/2 then "+0.5".toList else if p = 1 then "1".toList else "-0".toList
    n.written number blocks =
        "variable None \x7bvariable, 0\x7d\nvariable variable \x7b<, -, a b\x7d\n" ++
        "variable <- (None)\n(a b | 0): -0\n(< | variable): .25\n(a b | variable): +0.5\n" ++
        "(- | 0): 1\n(- | variable): .25\n(< | 0): -0\nNone <- None\n(0): 75e-2\n(variable): .25" ∧
      n.Family .default ∧ n.IsLayout blocks ∧
      ofText .default (n.written number blocks) = .ok n := by
  intro root child n blocks number
  have hfamily : n.Family .default :=
    { vars_ne_nil := by decide
      spellable := ⟨Catalog.inStep_of (by decide), by decide, by decide, by decide, by decide⟩
      size_le := by decide +kernel
      map_child := rfl
      parents_nodup := by decide
      parents_lt := by decide
      acyclic := acyclic_of_lt (by decide)
      length_table := by decide
      probabilities := by decide +kernel
      rows_near := by decide +kernel }
  have hlayout : n.IsLayout blocks := ⟨.swap _ _ _, by decide⟩
  have hnumber : ∀ m ∈ n.nodes, ∀ p ∈ m.table, ReadsBack number p := by decide +kernel
  refine ⟨by decide +kernel, hfamily, hlayout, ?_⟩
  exact ofText_written hfamily (by decide +kernel) (by decide) hlayout hnumber

/-- An empty label cannot be declared. -/
theorem ofText_written_empty_label :
    let root : Node ℚ := ⟨0, [], [1/2, 1/2]⟩
    let n : Network ℚ := ⟨.of [⟨"X", ["", "b"]⟩], [root]⟩
    let blocks := [(root, [0, 1])]
    let number : ℚ → List Char := fun _ => "0.5".toList
    n.Family .default ∧ n.IsLayout blocks ∧ (∀ m ∈ n.nodes, ∀ p ∈ m.table, ReadsBack number p) ∧
      ofText .default (n.written number blocks) =
        .error (SpecError.invalidDeclaration 1 .emptyState : SpecError ℚ) := by
  intro root n blocks number
  have hfamily : n.Family .default :=
    { vars_ne_nil := by decide
      spellable := ⟨Catalog.inStep_of (by decide), by decide, by decide, by decide, by decide⟩
      size_le := by decide +kernel
      map_child := rfl
      parents_nodup := by decide
      parents_lt := by decide
      acyclic := acyclic_of_lt (by decide)
      length_table := by decide
      probabilities := by decide +kernel
      rows_near := by decide +kernel }
  have hlayout : n.IsLayout blocks := ⟨.refl _, by decide⟩
  refine ⟨hfamily, hlayout, by decide +kernel, ?_⟩
  decide +kernel

end Network

end JointProb
