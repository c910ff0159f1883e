/-
  JointProb — the lines of blocks.

  * `BlockLines` are a header and entries as they stand in a text, and
    `BlockLines.Reads` says which block they are, given the variables;
  * `NetworkDraft.readHeader_renumber`: with the variables at other positions a
    header leads there;
  * `NetworkDraft.exists_readLines_blocks`: blocks of different variables are
    read one after the other, in whatever lines;
    `NetworkDraft.nodup_child_of_readLines`: other blocks are not.
-/
import JointProb.Proofs.Spec.BlockRenumbering
import JointProb.Proofs.Spec.Network
import JointProb.Proofs.Spec.NetworkText
import JointProb.Proofs.Spec.Sides

namespace JointProb

open Text

variable {σ : Equiv.Perm ℕ} {vs : List Variable}

/-! ## Lines -/

namespace NetworkDraft

/-- A line that opens a block, given the variables. -/
structure Opens (vs : List Variable) (content : List Char) (child : ℕ) (parents : List ℕ) :
    Prop where
  isDeclaration_eq : isDeclaration content = false
  readHeader_eq : ((mk vs []).readHeader 0 content : Except (SpecError ℚ) _) =
    .ok (some (child, parents))

/-- A line that adds an entry to a block, given the variables. -/
structure IsEntry (vs : List Variable) (content : List Char) (e : BlockEntry) : Prop where
  isDeclaration_eq : isDeclaration content = false
  readHeader_eq : ((mk vs []).readHeader 0 content : Except (SpecError ℚ) _) = .ok none
  cut_eq : (cut? [':'] content).map (Prod.map trim trim) = some (e.key, e.value)

instance (content : List Char) (child : ℕ) (parents : List ℕ) :
    Decidable (Opens vs content child parents) :=
  decidable_of_iff (isDeclaration content = false ∧
      ((mk vs []).readHeader 0 content : Except (SpecError ℚ) _).toOption =
        some (some (child, parents)))
    ⟨fun h => ⟨h.1, toOption_eq_some.1 h.2⟩,
      fun h => ⟨h.isDeclaration_eq, toOption_eq_some.2 h.readHeader_eq⟩⟩

instance (content : List Char) (e : BlockEntry) : Decidable (IsEntry vs content e) :=
  decidable_of_iff (isDeclaration content = false ∧
      ((mk vs []).readHeader 0 content : Except (SpecError ℚ) _).toOption = some none ∧
      (cut? [':'] content).map (Prod.map trim trim) = some (e.key, e.value))
    ⟨fun h => ⟨h.1, toOption_eq_some.1 h.2.1, h.2.2⟩,
      fun h => ⟨h.isDeclaration_eq, toOption_eq_some.2 h.readHeader_eq, h.cut_eq⟩⟩

end NetworkDraft

/-- The lines of a block. -/
structure BlockLines where
  header : List Char
  entries : List (List Char)
deriving DecidableEq, Repr

namespace BlockLines

/-- The header, then the entries. -/
def all (x : BlockLines) : List (List Char) := x.header :: x.entries

/-- The block that lines are, given the variables. -/
structure Reads (vs : List Variable) (x : BlockLines) (b : Block) : Prop where
  header : NetworkDraft.Opens vs x.header b.child b.parents
  entries : List.Forall₂ (NetworkDraft.IsEntry vs) x.entries b.entries

instance (x : BlockLines) (b : Block) : Decidable (x.Reads vs b) :=
  decidable_of_iff (NetworkDraft.Opens vs x.header b.child b.parents ∧
      List.Forall₂ (NetworkDraft.IsEntry vs) x.entries b.entries)
    ⟨fun h => ⟨h.1, h.2⟩, fun h => ⟨h.header, h.entries⟩⟩

end BlockLines

/-! ## Other positions -/

namespace NetworkDraft

variable {d d' : NetworkDraft}

theorem Parents.renumber (hindex : ∀ name, d'.indexOf? name = (d.indexOf? name).map σ)
    {names : List (List Char)} {parents : List ℕ} (h : d.Parents names parents) :
    d'.Parents names (parents.map σ) :=
  ⟨List.forall₂_map_right_iff.2 (h.1.imp fun _ _ hp => by rw [hindex, hp, Option.map_some]),
    h.2.map σ.injective⟩

/-- **A header leads to the new positions.** -/
theorem readHeader_renumber
    (hindex : ∀ name, d'.indexOf? name = (d.indexOf? name).map σ) {line : ℕ}
    {content : List Char} {header : Option (ℕ × List ℕ)}
    (h : (d.readHeader line content : Except (SpecError ℚ) _) = .ok header) (line' : ℕ) :
    (d'.readHeader line' content : Except (SpecError ℚ) _) =
      .ok (header.map (Prod.map σ (List.map σ))) := by
  cases header with
  | none =>
    refine readHeader_eq_none_iff.2 fun s hs => ?_
    obtain ⟨harrow, hnames⟩ := readHeader_eq_none_iff.1 h s hs
    simp only [hindex, Option.map_eq_none_iff]
    exact ⟨harrow, hnames⟩
  | some header =>
    obtain ⟨s, hs, hchild, hparents⟩ := readHeader_eq_some_iff.1 h
    exact readHeader_eq_some_iff.2
      ⟨s, hs, by rw [hindex, hchild, Option.map_some], hparents.renumber hindex⟩

/-- Only the variables count, and no line. -/
theorem readHeader_of_vars (hvars : d'.vars = d.vars) {line : ℕ} {content : List Char}
    {header : Option (ℕ × List ℕ)}
    (h : (d.readHeader line content : Except (SpecError ℚ) _) = .ok header) (line' : ℕ) :
    (d'.readHeader line' content : Except (SpecError ℚ) _) = .ok header := by
  have hindex (name : List Char) : d'.indexOf? name = (d.indexOf? name).map (Equiv.refl ℕ) := by
    rw [indexOf?, indexOf?, hvars, Equiv.coe_refl, Option.map_id, id]
  have hread := readHeader_renumber hindex h line'
  rwa [Equiv.coe_refl, List.map_id_fun, Prod.map_id, Option.map_id] at hread

/-- Without variables no line opens a block. -/
theorem Opens.vars_ne_nil {content : List Char} {child : ℕ} {parents : List ℕ}
    (h : Opens vs content child parents) : vs ≠ [] := by
  rintro rfl
  obtain ⟨s, -, hchild, -⟩ := readHeader_eq_some_iff.1 h.readHeader_eq
  cases hchild

/-! ## Reading -/

/-- A header opens its block. -/
theorem Opens.readLine_eq {content : List Char} {child : ℕ} {parents : List ℕ}
    (h : Opens vs content child parents) (hd : d.vars = vs) (line : ℕ) :
    (d.readLine line content : Except (SpecError ℚ) NetworkDraft) =
      d.openBlock line child parents := by
  obtain ⟨hheader, hdeclaration⟩ := isDeclaration_eq_false_iff.1 h.isDeclaration_eq
  have hvars : ¬ d.vars.isEmpty := by rw [List.isEmpty_iff, hd]; exact h.vars_ne_nil
  have hread := readHeader_of_vars (d := ⟨vs, []⟩) hd h.readHeader_eq line
  simp only [readLine, hheader, hdeclaration, if_neg hvars, hread]

/-- An entry is added to the open block. -/
theorem IsEntry.readLine_eq {content : List Char} {e : BlockEntry} (h : IsEntry vs content e)
    (hvs : vs ≠ []) (hd : d.vars = vs) {b : Block} {blocks : List Block}
    (hblocks : d.blocks = b :: blocks) (line : ℕ) :
    (d.readLine line content : Except (SpecError ℚ) NetworkDraft) =
      .ok { d with blocks := { b with
        entries := b.entries ++ [⟨line, e.key, e.value⟩] } :: blocks } := by
  obtain ⟨hheader, hdeclaration⟩ := isDeclaration_eq_false_iff.1 h.isDeclaration_eq
  have hvars : ¬ d.vars.isEmpty := by rwa [List.isEmpty_iff, hd]
  have hread := readHeader_of_vars (d := ⟨vs, []⟩) hd h.readHeader_eq line
  obtain ⟨⟨key, value⟩, hcut, hkey⟩ := Option.map_eq_some_iff.1 h.cut_eq
  obtain ⟨hkey, hvalue⟩ := Prod.mk.inj hkey
  simp only [readLine, hheader, hdeclaration, if_neg hvars, hread, readEntry, hblocks, hcut,
    ← hkey, ← hvalue]

/-- The same entry in another line. -/
theorem IsEntry.at_line {content : List Char} {e : BlockEntry} (h : IsEntry vs content e)
    (line : ℕ) : IsEntry vs content ⟨line, e.key, e.value⟩ :=
  ⟨h.isDeclaration_eq, h.readHeader_eq, h.cut_eq⟩

/-- Entries are added one after the other. -/
theorem exists_readLines_entries {contents : List (List Char)} {entries : List BlockEntry}
    (h : List.Forall₂ (IsEntry vs) contents entries) (hvs : vs ≠ [])
    {ls : List (ℕ × List Char)} (hls : ls.map Prod.snd = contents) (hd : d.vars = vs) {b : Block}
    {blocks : List Block} (hblocks : d.blocks = b :: blocks) :
    ∃ entries', (d.readLines ls : Except (SpecError ℚ) NetworkDraft) =
        .ok { d with blocks := { b with entries := b.entries ++ entries' } :: blocks } ∧
      List.Forall₂ (IsEntry vs) contents entries' := by
  induction h generalizing ls d b with
  | nil =>
    obtain rfl := List.map_eq_nil_iff.1 hls
    refine ⟨[], ?_, .nil⟩
    rw [List.append_nil, ← hblocks]
    rfl
  | @cons content e contents _ he _ ih =>
    obtain ⟨⟨line, _⟩, ls, rfl, rfl, hrest⟩ := List.map_eq_cons_iff.1 hls
    obtain ⟨entries', hrun, hentries'⟩ := ih hrest (d := { d with blocks := _ :: blocks }) hd rfl
    refine ⟨⟨line, e.key, e.value⟩ :: entries', ?_, .cons (he.at_line line) hentries'⟩
    rw [readLines_cons (he.readLine_eq hvs hd hblocks line), hrun, List.append_assoc]
    rfl

end NetworkDraft

namespace BlockLines

open NetworkDraft

variable {x : BlockLines} {b : Block} {d d' : NetworkDraft} {ls : List (ℕ × List Char)}

/-- **The lines of a block are read as the block**, if there is none of its
    variable. -/
theorem Reads.exists_readLines (h : x.Reads vs b) (hls : ls.map Prod.snd = x.all)
    (hd : d.vars = vs) (hnew : ∀ b' ∈ d.blocks, b'.child ≠ b.child) :
    ∃ b', (d.readLines ls : Except (SpecError ℚ) NetworkDraft) =
        .ok { d with blocks := b' :: d.blocks } ∧ x.Reads vs b' ∧ b'.child = b.child := by
  obtain ⟨⟨line, _⟩, ls, rfl, rfl, hentries⟩ := List.map_eq_cons_iff.1 hls
  have hfresh : ¬ d.blocks.any (·.child == b.child) := by simpa using hnew
  have hopen := h.header.readLine_eq hd line
  rw [openBlock, if_neg hfresh] at hopen
  obtain ⟨entries, hrun, hentries⟩ := exists_readLines_entries h.entries h.header.vars_ne_nil
    hentries (d := { d with blocks := ⟨b.child, b.parents, line, []⟩ :: d.blocks }) hd rfl
  exact ⟨⟨b.child, b.parents, line, entries⟩, (readLines_cons hopen ls).trans hrun,
    ⟨h.header, hentries⟩, rfl⟩

/-- Otherwise they are not read. -/
theorem Reads.child_ne_of_readLines (h : x.Reads vs b) (hls : ls.map Prod.snd = x.all)
    (hd : d.vars = vs) (hread : (d.readLines ls : Except (SpecError ℚ) NetworkDraft) = .ok d') :
    ∀ b' ∈ d.blocks, b'.child ≠ b.child := by
  obtain ⟨⟨line, _⟩, ls, rfl, rfl, -⟩ := List.map_eq_cons_iff.1 hls
  rw [readLines, List.foldlM_cons, bind_eq_ok] at hread
  obtain ⟨_, hopen, -⟩ := hread
  simp only [h.header.readLine_eq hd, openBlock] at hopen
  split_ifs at hopen with htaken
  simpa using htaken

end BlockLines

namespace NetworkDraft

variable {xs : List BlockLines} {bs : List Block} {d d' : NetworkDraft} {ls : List (ℕ × List Char)}

/-- **Blocks of different variables are read one after the other.** -/
theorem exists_readLines_blocks (h : List.Forall₂ (BlockLines.Reads vs) xs bs)
    (hls : ls.map Prod.snd = xs.flatMap BlockLines.all) (hd : d.vars = vs)
    (hnodup : (bs.map Block.child).Nodup)
    (hnew : ∀ b ∈ bs, ∀ b' ∈ d.blocks, b'.child ≠ b.child) :
    ∃ bs', (d.readLines ls : Except (SpecError ℚ) NetworkDraft) =
        .ok { d with blocks := bs'.reverse ++ d.blocks } ∧
      List.Forall₂ (BlockLines.Reads vs) xs bs' := by
  induction h generalizing ls d with
  | nil =>
    obtain rfl := List.map_eq_nil_iff.1 hls
    exact ⟨[], rfl, .nil⟩
  | @cons x b xs bs hx _ ih =>
    obtain ⟨hhead, hnodup⟩ := List.nodup_cons.1 hnodup
    obtain ⟨hb, hbs⟩ := List.forall_mem_cons.1 hnew
    rw [List.flatMap_cons, List.map_eq_append_iff] at hls
    obtain ⟨lsx, ls, rfl, hlsx, hls⟩ := hls
    obtain ⟨b', hblock, hb', hchild⟩ := hx.exists_readLines hlsx hd hb
    have hnew' : ∀ b₁ ∈ bs, ∀ b₂ ∈ b' :: d.blocks, b₂.child ≠ b₁.child := fun b₁ hb₁ =>
      List.forall_mem_cons.2 ⟨fun heq => hhead (List.mem_map.2 ⟨b₁, hb₁, heq.symm.trans hchild⟩),
        hbs b₁ hb₁⟩
    obtain ⟨bs', hrun, hbs'⟩ :=
      ih hls (d := { d with blocks := b' :: d.blocks }) hd hnodup hnew'
    refine ⟨b' :: bs', ?_, .cons hb' hbs'⟩
    rw [readLines_append hblock, hrun, List.reverse_cons, List.append_assoc]
    rfl

/-- **Blocks that are read are of different variables.** -/
theorem nodup_child_of_readLines (h : List.Forall₂ (BlockLines.Reads vs) xs bs)
    (hls : ls.map Prod.snd = xs.flatMap BlockLines.all) (hd : d.vars = vs)
    (hread : (d.readLines ls : Except (SpecError ℚ) NetworkDraft) = .ok d') :
    (bs.map Block.child).Nodup ∧ ∀ b ∈ bs, ∀ b' ∈ d.blocks, b'.child ≠ b.child := by
  induction h generalizing ls d with
  | nil => exact ⟨.nil, fun b hb => absurd hb List.not_mem_nil⟩
  | @cons x b xs bs hx _ ih =>
    rw [List.flatMap_cons, List.map_eq_append_iff] at hls
    obtain ⟨lsx, ls, rfl, hlsx, hls⟩ := hls
    have hsplit := hread
    rw [readLines, List.foldlM_append, bind_eq_ok] at hsplit
    obtain ⟨d₁, hfirst, -⟩ := hsplit
    have hb := hx.child_ne_of_readLines hlsx hd hfirst
    obtain ⟨b', hblock, -, hchild⟩ := hx.exists_readLines hlsx hd hb
    rw [readLines_append hblock] at hread
    obtain ⟨hnodup, hbs⟩ := ih hls (d := { d with blocks := b' :: d.blocks }) hd hread
    refine ⟨List.nodup_cons.2 ⟨fun hmem => ?_, hnodup⟩, List.forall_mem_cons.2 ⟨hb, fun b₁ hb₁ => ?_⟩⟩
    · obtain ⟨b₁, hb₁, heq⟩ := List.mem_map.1 hmem
      exact hbs b₁ hb₁ b' (List.mem_cons_self ..) (hchild.trans heq.symm)
    · exact fun b₂ hb₂ => hbs b₁ hb₁ b₂ (List.mem_cons_of_mem _ hb₂)

end NetworkDraft

end JointProb
