/-
  JointProb — texts as declarations and blocks.

  * `HasParts` says which variables the lines of a text declare and which
    blocks follow;
  * `exists_hasParts` and `exists_isBlock`: all texts that can be read have such
    parts;
  * `HasParts.exists_read` and `HasParts.of_read`: a text is read if its blocks
    are of different variables, and only then.
-/
import JointProb.Proofs.Spec.BlockLines

namespace JointProb

open Text

variable {vs : List Variable}

deriving instance DecidableEq for NetworkDraft

/-- Lines that are a block over some variables. -/
def BlockLines.IsBlock (vs : List Variable) (x : BlockLines) : Prop := ∃ b, x.Reads vs b

/-- Declarations of variables, then the lines of blocks. -/
def HasParts (vs : List Variable) (xs : List BlockLines) (ls : List (ℕ × List Char)) : Prop :=
  ∃ declarations lines, ls = declarations ++ lines ∧
    (NetworkDraft.empty.readLines declarations : Except (SpecError ℚ) NetworkDraft) =
      .ok ⟨vs, []⟩ ∧
    lines.map Prod.snd = xs.flatMap BlockLines.all

/-! ## Parts -/

open NetworkDraft

variable {d d' : NetworkDraft} {xs : List BlockLines} {ls : List (ℕ × List Char)}

/-- A line that is read is part of the declarations or of the last block. -/
theorem exists_hasParts_step (h : HasParts d.vars xs.reverse ls)
    (hxs : List.Forall₂ (BlockLines.Reads d.vars) xs d.blocks)
    (hread : (empty.readLines ls : Except (SpecError ℚ) NetworkDraft) = .ok d) {line : ℕ}
    {content : List Char}
    (hstep : (d.readLine line content : Except (SpecError ℚ) NetworkDraft) = .ok d') :
    ∃ xs', HasParts d'.vars xs'.reverse (ls ++ [(line, content)]) ∧
      List.Forall₂ (BlockLines.Reads d'.vars) xs' d'.blocks := by
  cases afterLine_of_readLine hstep with
  | declared _ hfront _ _ =>
    exact ⟨[], ⟨_, [], (List.append_nil _).symm,
      (readLines_append hread _).trans (readLines_cons hstep []), rfl⟩, .nil⟩
  | @opened child parents hdecl hheader _ =>
    obtain ⟨declarations, lines, rfl, hdeclarations, hlines⟩ := h
    refine ⟨⟨content, []⟩ :: xs, ⟨declarations, lines ++ [(line, content)],
      List.append_assoc .., hdeclarations, ?_⟩,
      .cons ⟨⟨hdecl, readHeader_of_vars (by rfl) hheader 0⟩, .nil⟩ hxs⟩
    rw [List.map_append, hlines, List.reverse_cons, List.flatMap_append]
    rfl
  | @added b blocks key value hdecl hheader hblocks hcut =>
    obtain ⟨declarations, lines, rfl, hdeclarations, hlines⟩ := h
    rw [hblocks] at hxs
    obtain ⟨x, xs, hx, hrest, rfl⟩ := List.forall₂_cons_right_iff.1 hxs
    have hentry : IsEntry d.vars content ⟨line, trim key, trim value⟩ :=
      ⟨hdecl, readHeader_of_vars (by rfl) hheader 0, by rw [hcut]; rfl⟩
    refine ⟨⟨x.header, x.entries ++ [content]⟩ :: xs, ⟨declarations, lines ++ [(line, content)],
      List.append_assoc .., hdeclarations, ?_⟩,
      .cons ⟨hx.header, List.rel_append hx.entries (.cons hentry .nil)⟩ hrest⟩
    rw [List.map_append, hlines, List.reverse_cons, List.reverse_cons, List.flatMap_append,
      List.flatMap_append, List.append_assoc]
    simp [BlockLines.all]

/-- **All lines that can be read have parts.** -/
theorem exists_hasParts (h : (empty.readLines ls : Except (SpecError ℚ) NetworkDraft) = .ok d) :
    ∃ xs, HasParts d.vars xs.reverse ls ∧
      List.Forall₂ (BlockLines.Reads d.vars) xs d.blocks := by
  induction ls using List.reverseRecOn generalizing d with
  | nil =>
    cases h
    exact ⟨[], ⟨[], [], rfl, rfl, rfl⟩, .nil⟩
  | append_singleton ls l ih =>
    obtain ⟨d₁, hfirst, hstep⟩ := readLines_concat_eq_ok_iff.1 h
    obtain ⟨xs, hparts, hxs⟩ := ih hfirst
    exact exists_hasParts_step hparts hxs hfirst hstep

theorem exists_isBlock (h : (empty.readLines ls : Except (SpecError ℚ) NetworkDraft) = .ok d) :
    ∃ xs, HasParts d.vars xs ls ∧ ∀ x ∈ xs, x.IsBlock d.vars := by
  obtain ⟨xs, hparts, hxs⟩ := exists_hasParts h
  refine ⟨xs.reverse, hparts, ?_⟩
  intro x hx
  obtain ⟨b, -, hb⟩ := exists_right_of_forall₂ hxs (List.mem_reverse.1 hx)
  exact ⟨b, hb⟩

namespace HasParts

/-- A text declares each name once. -/
theorem nodup_names (h : HasParts vs xs ls) : (vs.map Variable.name).Nodup := by
  obtain ⟨declarations, -, -, hread, -⟩ := h
  have hempty : (empty.vars.map Variable.name).Nodup := List.nodup_nil
  refine foldlM_invariant (p := fun e => (e.vars.map Variable.name).Nodup)
    (fun _ _ _ he hstep => ?_) hempty hread
  cases afterLine_of_readLine hstep with
  | declared _ _ _ hnodup => exact hnodup he
  | opened => exact he
  | added => exact he

/-- Blocks of different variables are read. -/
theorem exists_read {bs : List Block} (h : HasParts vs xs ls)
    (hbs : List.Forall₂ (BlockLines.Reads vs) xs bs) (hnodup : (bs.map Block.child).Nodup) :
    ∃ bs', (empty.readLines ls : Except (SpecError ℚ) NetworkDraft) = .ok ⟨vs, bs'.reverse⟩ ∧
      List.Forall₂ (BlockLines.Reads vs) xs bs' := by
  obtain ⟨declarations, lines, rfl, hdeclarations, hlines⟩ := h
  obtain ⟨bs', hrun, hbs'⟩ := exists_readLines_blocks hbs hlines
    (d := ⟨vs, []⟩) rfl hnodup fun _ _ _ hmem => absurd hmem List.not_mem_nil
  refine ⟨bs', ?_, hbs'⟩
  rw [readLines_append hdeclarations, hrun, List.append_nil]

/-- What is read are these blocks, of different variables. -/
theorem of_read (h : HasParts vs xs ls) (hblocks : ∀ x ∈ xs, x.IsBlock vs)
    (hread : (empty.readLines ls : Except (SpecError ℚ) NetworkDraft) = .ok d) :
    ∃ bs, d = ⟨vs, bs.reverse⟩ ∧ List.Forall₂ (BlockLines.Reads vs) xs bs ∧
      (bs.map Block.child).Nodup := by
  have hnodup {bs : List Block} (hbs : List.Forall₂ (BlockLines.Reads vs) xs bs) :
      (bs.map Block.child).Nodup := by
    obtain ⟨declarations, lines, rfl, hdeclarations, hlines⟩ := h
    rw [readLines_append hdeclarations] at hread
    exact (nodup_child_of_readLines hbs hlines rfl hread).1
  obtain ⟨bs, hbs⟩ := exists_forall₂ hblocks
  obtain ⟨bs', hread', hbs'⟩ := h.exists_read hbs (hnodup hbs)
  exact ⟨bs', Except.ok.inj (hread.symm.trans hread'), hbs', hnodup hbs'⟩

end HasParts

end JointProb
