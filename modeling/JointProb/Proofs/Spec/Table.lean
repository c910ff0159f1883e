/-
  JointProb — what tables of joint probabilities describe.

  * `TableDraft.Sound` holds of what has been read of a table: patterns have
    digits, values are probabilities;
  * `TableDraft.sound_of_read`: reading keeps this, line by line;
  * `Distribution.wellFormed_ofTable`: a table describes a well-formed
    distribution or none.
-/
import JointProb.Proofs.Result
import JointProb.Proofs.WellFormed
import JointProb.Spec.Table

namespace JointProb

namespace TableDraft

/-! ## Reading -/

/-- Patterns have digits, values are probabilities. -/
def Sound (t : TableDraft ℚ) : Prop := ∀ e ∈ t.entries, e.pattern ≠ [] ∧ IsProbability e.value

theorem sound_readEntry {t t' : TableDraft ℚ} {line : Nat} {pattern value : List Char}
    (ht : t.Sound) (h : t.readEntry line pattern value = .ok t') : t'.Sound := by
  simp only [readEntry] at h
  split at h
  · cases h
  rename_i hpattern
  split at h
  · cases h
  split at h
  · cases h
  rename_i p hp
  split_ifs at h
  cases h
  intro e he
  rcases List.mem_append.1 he with he | he
  · exact ht e he
  · rw [List.mem_singleton.1 he]
    exact ⟨fun hnil => hpattern (Or.inl (List.isEmpty_iff.2 hnil)),
      Line.isProbability_of_probability hp⟩

theorem sound_readLine {t t' : TableDraft ℚ} {line : Nat} {content : List Char} (ht : t.Sound)
    (h : t.readLine line content = .ok t') : t'.Sound := by
  rw [readLine] at h
  split at h
  · split at h
    · cases h
    · obtain ⟨names, -, rfl⟩ := map_eq_ok.1 h
      exact ht
  · split at h
    · cases h
    · exact sound_readEntry ht h

/-- **What is read of a table is sound.** -/
theorem sound_of_read {text : String} {t : TableDraft ℚ} (h : read text = .ok t) : t.Sound :=
  foldlM_invariant (fun _ _ _ hs hstep => sound_readLine hs hstep)
    (fun _ he => absurd he List.not_mem_nil) h

/-! ## The distribution -/

variable {t : TableDraft ℚ}

theorem width_pos (ht : t.Sound) {w : Nat} (h : t.width = .ok w) : 0 < w := by
  rw [width] at h
  split at h
  · cases h
  · rename_i first rest hentries
    cases h
    exact List.length_pos_of_ne_nil (ht first (by simp [hentries])).1

theorem length_chooseNames {α : Type} {t : TableDraft α} (given : Option (List String))
    (w : Nat) : (t.chooseNames given w).length = w := by
  rw [chooseNames]
  split
  · split_ifs with hlen
    · exact hlen
    · simp [defaultNames]
  · simp [defaultNames]

theorem isProbability_numbered (ht : t.Sound) {cells : List (Nat × ℚ)}
    (h : t.numbered = .ok cells) : ∀ x ∈ cells, IsProbability x.2 := by
  intro x hx
  obtain ⟨e, he, hex⟩ := exists_of_mem_of_mapM h hx
  split at hex
  · cases hex
    exact (ht e he).2
  · cases hex

theorem nonneg_fillMissing {tolerance : ℚ} {size : Nat} {cells : List (Nat × ℚ)} {probs : List ℚ}
    (hcells : ∀ x ∈ cells, IsProbability x.2)
    (h : fillMissing tolerance size cells = .ok probs) : ∀ p ∈ probs, 0 ≤ p := by
  have hspread : ∀ p ∈ spread size cells, 0 ≤ p := by
    intro p hp
    obtain ⟨i, -, rfl⟩ := List.mem_map.1 hp
    exact (IsProbability.getD_lookup hcells i).1
  simp only [fillMissing] at h
  split_ifs at h with hone
  · cases h
    intro p hp
    obtain ⟨i, -, rfl⟩ := List.mem_map.1 hp
    -- an entry that is there, or what is left of one
    cases hl : cells.lookup i with
    | none => exact Scalar.positivePart_nonneg _
    | some q => simpa [hl] using (IsProbability.getD_lookup hcells i).1
  · cases h
    exact hspread

theorem wellFormed_fill {settings : Settings ℚ} {c : Catalog} {cap : Nat}
    {cells : List (Nat × ℚ)} {d : Distribution ℚ} (hc : c.WellFormed cap)
    (hcells : ∀ x ∈ cells, IsProbability x.2) (h : fill settings c cells = .ok d) :
    d.WellFormed cap := by
  rw [fill] at h
  split at h
  · cases h
  · rename_i probs hprobs
    split at h
    · cases h
    · rename_i scaled hscaled
      cases h
      exact Distribution.wellFormed_of_normalizeWithin hc (nonneg_fillMissing hcells hprobs) hscaled

theorem wellFormed_ofNames {names : List String} {cap : Nat} {c : Catalog} (hne : names ≠ [])
    (h : (Catalog.ofNames names cap : Except (SpecError ℚ) Catalog) = .ok c) :
    c.WellFormed cap := by
  refine Catalog.wellFormed_of_ofVariables (by simpa using hne) (fun v hv => ?_) h
  obtain ⟨name, -, rfl⟩ := List.mem_map.1 hv
  exact Variable.wellFormed_boolean name

theorem wellFormed_complete (ht : t.Sound) {settings : Settings ℚ} {given : Option (List String)}
    {d : Distribution ℚ} (h : t.complete settings given = .ok d) :
    d.WellFormed settings.maxAssignments := by
  simp only [complete, bind_eq_ok] at h
  obtain ⟨w, hw, c, hc, cells, hcells, h⟩ := h
  have hne : t.chooseNames given w ≠ [] := by
    rw [← List.length_pos_iff, length_chooseNames]
    exact width_pos ht hw
  exact wellFormed_fill (wellFormed_ofNames hne hc) (isProbability_numbered ht hcells) h

end TableDraft

/-- **A table describes a well-formed distribution or none.** -/
theorem Distribution.wellFormed_ofTable {settings : Settings ℚ} {given : Option (List String)}
    {text : String} {d : Distribution ℚ} (h : ofTable settings given text = .ok d) :
    d.WellFormed settings.maxAssignments := by
  obtain ⟨t, ht, h⟩ := bind_eq_ok.1 h
  exact TableDraft.wellFormed_complete (TableDraft.sound_of_read ht) h

end JointProb
