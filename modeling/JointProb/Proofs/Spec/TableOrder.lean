/-
  JointProb — tables in other orders and layouts.

      variables: Rain, Late            11: 0.18
      00: 0.6                              # most likely
      01: 0.1                            00: 0.6
      10: 0.12                         variables: Rain, Late
      11: 0.18                         10: 0.12   # late
                                       01: 0.1

  The probabilities of a table go to the numbers of their patterns before
  anything is added, so that rounding does not depend on the order of the lines.

  * `TableDraft.fill_congr`: only what stands at each number counts;
  * `TableDraft.complete_congr`: so the same lines in another order are made
    into the same distribution, or into the same fault;
  * `Distribution.ofText_rearranged`: so are texts with these lines, whatever
    their layout and whatever numbers are computed with.
-/
import JointProb.Proofs.Spec.Completion
import JointProb.Proofs.Spec.Layout
import JointProb.Proofs.Spec.TableItems
import JointProb.Scalar.Binary64

namespace JointProb

variable {α : Type}

namespace TableDraft

variable {t t' : TableDraft α} {xs xs' : List (TableItem α)}

/-! ## The same lines in another order -/

theorem Reads.header_congr (ht : t.Reads xs) (ht' : t'.Reads xs') (h : xs'.Perm xs) :
    t'.header = t.header := by
  have hperm : t'.header.toList.Perm t.header.toList := by
    rw [ht.header_eq, ht'.header_eq]
    exact h.filterMap _
  cases hheader : t.header with
  | none =>
    rw [hheader] at hperm
    exact Option.toList_eq_nil_iff.1 (List.perm_nil.1 hperm)
  | some names =>
    rw [hheader] at hperm
    exact Option.toList_eq_singleton_iff.1 (List.perm_singleton.1 hperm)

/-- The width is that of any of the patterns. -/
theorem Reads.width_congr (ht : t.Reads xs) (ht' : t'.Reads xs') (h : xs'.Perm xs)
    (hxs : xs.Pairwise TableItem.Fits) : t'.width = (t.width : Except (SpecError α) Nat) := by
  have hlength : t'.entries.length = t.entries.length := by
    rw [ht.entries_eq.length_eq, ht'.entries_eq.length_eq]
    exact (h.filterMap _).length_eq
  have hwidth : ∀ e' ∈ t'.entries, ∀ e ∈ t.entries, e'.pattern.length = e.pattern.length := by
    rw [ht'.forall_pattern_iff (P := fun pattern =>
      ∀ e ∈ t.entries, pattern.length = e.pattern.length)]
    intro x hx a ha
    rw [ht.forall_pattern_iff (P := fun pattern => a.1.text.length = pattern.length)]
    intro y hy b hb
    rw [Bits.length_text, Bits.length_text,
      TableItem.length_eq_of_pairwise hxs (h.mem_iff.1 hx) hy ha hb]
  rw [width, width]
  cases hentries : t.entries with
  | nil =>
    rw [hentries] at hlength
    rw [List.length_eq_zero_iff.1 hlength]
  | cons e es =>
    rw [hentries] at hlength hwidth
    obtain ⟨e', es', hentries'⟩ := List.exists_cons_of_length_eq_add_one hlength
    rw [hentries'] at hwidth ⊢
    exact congrArg Except.ok (hwidth e' List.mem_cons_self e List.mem_cons_self)

/-! ## Probabilities by number -/

/-- Different entries of a width have different numbers. -/
theorem nodup_numbers (hxs : xs.Pairwise TableItem.Fits) :
    (((xs.filterMap TableItem.entry?).map fun e => (e.1.number, e.2)).map Prod.fst).Nodup := by
  rw [List.map_map, List.Nodup, List.pairwise_map]
  refine hxs.filterMap _ fun x y hfits a ha b hb heq => ?_
  cases x <;> cases y <;> cases ha <;> cases hb
  exact hfits.2 (Bits.number_inj hfits.1 heq)

/-- The width is that of all patterns. -/
theorem Reads.length_eq_of_width (ht : t.Reads xs) (hxs : xs.Pairwise TableItem.Fits) {w : Nat}
    (hw : t.width = (.ok w : Except (SpecError α) Nat)) :
    ∀ e ∈ xs.filterMap TableItem.entry?, e.1.length = w := by
  intro e he
  obtain ⟨entry, hentry, hpattern, -⟩ := exists_left_of_forall₂ ht.entries_eq he
  rw [← Bits.length_text, ← hpattern]
  rw [width] at hw
  split at hw
  · cases hw
  · next first rest hentries =>
    cases hw
    exact ht.length_eq hxs entry hentry first (by simp [hentries])

/-- The patterns of a catalog that is accepted are numerals that fit a word. -/
theorem Reads.two_pow_le_wordLimit (ht : t.Reads xs) (hxs : xs.Pairwise TableItem.Fits) {w : Nat}
    {given : Option (List String)} (hw : t.width = (.ok w : Except (SpecError α) Nat))
    {c : Catalog} {cap : Nat}
    (hc : (Catalog.ofNames (t.chooseNames given w) cap : Except (SpecError α) Catalog) = .ok c) :
    ∀ e ∈ xs.filterMap TableItem.entry?, 2 ^ e.1.length ≤ Text.wordLimit := by
  intro e he
  obtain ⟨-, -, -, hsize, -⟩ := Catalog.ofVariables_eq_ok_iff.1 hc
  obtain rfl := Catalog.of_ofVariables hc
  rw [Catalog.size_boolean, length_chooseNames] at hsize
  rw [ht.length_eq_of_width hxs hw e he]
  exact hsize.le

variable [Scalar α] {settings : Settings α} {given : Option (List String)}
  {cells cells' : List (Nat × α)}

/-- **The entries of a table by number**, if its catalog is accepted: each has a
    number of its own. -/
theorem exists_numbered {text : String} {width cap : Nat} {c : Catalog} (ht : read text = .ok t)
    (hwidth : t.width = (.ok width : Except (SpecError α) Nat))
    (hc : (Catalog.ofNames (t.chooseNames given width) cap : Except (SpecError α) Catalog) =
      .ok c) :
    ∃ entries : List (Bits × α),
      List.Forall₂ (fun e (x : Bits × α) => e.pattern = x.1.text ∧ e.value = x.2) t.entries
        entries ∧
      (∀ e ∈ entries, e.1.length = width) ∧
      ((entries.map fun e => (e.1.number, e.2)).map Prod.fst).Nodup ∧
      t.numbered = (.ok (entries.map fun e => (e.1.number, e.2)) : Except (SpecError α) _) := by
  obtain ⟨xs, hsays, hxs, hreads⟩ := reads_of_read ht
  exact ⟨_, hreads.entries_eq, hreads.length_eq_of_width hxs hwidth, nodup_numbers hxs,
    numbered_eq_ok hreads.entries_eq (TableItem.ne_nil_of_says hsays)
      (hreads.two_pow_le_wordLimit hxs hwidth hc)⟩

theorem fillMissing_congr (hlength : cells'.length = cells.length)
    (hlookup : ∀ i, cells'.lookup i = cells.lookup i) (tolerance : α) (size : Nat) :
    fillMissing tolerance size cells' = fillMissing tolerance size cells := by
  have hfilled (p : α) : (List.range size).map (fun i => (cells'.lookup i).getD p) =
      (List.range size).map fun i => (cells.lookup i).getD p := by
    simp only [hlookup]
  have hspread : spread size cells' = spread size cells := hfilled 0
  simp only [fillMissing, hlength, hspread, hfilled]

/-- Only what stands at each number counts. -/
theorem fill_congr {c : Catalog} (hlength : cells'.length = cells.length)
    (hlookup : ∀ i, cells'.lookup i = cells.lookup i) :
    fill settings c cells' = fill settings c cells := by
  have hprobs := fillMissing_congr hlength hlookup settings.tolerances.sum c.size
  rw [fill, fill]
  split
  · next e he =>
    rw [hprobs] at he
    split
    · next he' => cases he.symm.trans he'; rfl
    · next he' => cases he.symm.trans he'
  · next probs hp =>
    rw [hprobs] at hp
    split
    · next sum hs =>
      split
      · next hp' => cases hp.symm.trans hp'
      · next hp' =>
        cases hp.symm.trans hp'
        split
        · next hs' => cases hs.symm.trans hs'; rfl
        · next hs' => cases hs.symm.trans hs'
    · next scaled hs =>
      split
      · next hp' => cases hp.symm.trans hp'
      · next hp' =>
        cases hp.symm.trans hp'
        split
        · next hs' => cases hs.symm.trans hs'
        · next hs' => cases hs.symm.trans hs'; rfl

/-! ## Texts -/

/-- **The same lines in another order** are made into the same distribution, or
    into the same fault. -/
theorem Reads.complete_congr (ht : t.Reads xs) (ht' : t'.Reads xs') (h : xs'.Perm xs)
    (hxs : xs.Pairwise TableItem.Fits) (hne : ∀ e ∈ xs.filterMap TableItem.entry?, e.1 ≠ []) :
    t'.complete settings given = t.complete settings given := by
  have hheader := ht.header_congr ht' h
  have hchoose (w : Nat) : t'.chooseNames given w = t.chooseNames given w := by
    rw [chooseNames, chooseNames, hheader]
  rw [complete, complete, ht.width_congr ht' h hxs]
  cases hw : (t.width : Except (SpecError α) Nat) with
  | error e => rfl
  | ok w =>
    simp only [bind, Except.bind, hchoose]
    cases hc : (Catalog.ofNames (t.chooseNames given w) settings.maxAssignments :
        Except (SpecError α) Catalog) with
    | error e => rfl
    | ok c =>
      have hword := ht.two_pow_le_wordLimit hxs hw hc
      have hentries := h.filterMap TableItem.entry?
      have hnumbered' := numbered_eq_ok ht'.entries_eq (fun e he => hne e (hentries.mem_iff.1 he))
        fun e he => hword e (hentries.mem_iff.1 he)
      have hcells := hentries.map fun e => (e.1.number, e.2)
      simp only [numbered_eq_ok ht.entries_eq hne hword, hnumbered']
      exact fill_congr hcells.length_eq fun i =>
        (lookup_perm hcells.symm (nodup_numbers hxs) i).symm

end TableDraft

variable [Scalar α]

/-- **A text with the lines of another one**, in whatever order and layout, is
    read in the same way: it describes the same distribution, or has the same
    fault. -/
theorem Distribution.ofText_rearranged {settings : Settings α} {given : Option (List String)}
    {text text' : String} {t : TableDraft α} (h : TableDraft.read text = .ok t)
    {contents : List (List Char)} (hperm : contents.Perm ((Line.numbered text).map Prod.snd))
    (hlays : Line.Lays contents (Text.lines text'.toList)) :
    ofText settings given .table text' = ofText settings given .table text := by
  obtain ⟨xs, hsays, hxs, ht⟩ := TableDraft.reads_of_read h
  obtain ⟨xs', hsays', hperm'⟩ := List.perm_comp_forall₂ hperm hsays
  have hcontents : (Line.numbered text').map Prod.snd = contents :=
    hlays.map_snd_numbered fun c hc => Line.content?_of_mem_numbered (hperm.mem_iff.1 hc)
  have hxs' : xs'.Pairwise TableItem.Fits := (hperm'.pairwise_iff TableItem.Fits.symm).2 hxs
  obtain ⟨t', hread', ht'⟩ := TableDraft.exists_reads (hcontents ▸ hsays') hxs'
  rw [ofText, ofText, ofTable, ofTable, h, hread']
  exact ht.complete_congr ht' hperm' hxs (TableItem.ne_nil_of_says hsays)

/-- The table of the header of this file, in numbers of 64 bits: the same in
    each bit. -/
theorem Distribution.ofText_rearranged_rain :
    let text := "variables: Rain, Late\n00: 0.6\n01: 0.1\n10: 0.12\n11: 0.18"
    let text' := "11: 0.18\r\n    # most likely\r\n  00: 0.6\r\n\r\n" ++
      "variables: Rain, Late\n10: 0.12   # late\n\t01: 0.1"
    let contents := (Line.numbered text').map Prod.snd
    ∃ t : TableDraft Float, TableDraft.read text = .ok t ∧
      contents.Perm ((Line.numbered text).map Prod.snd) ∧
      Line.Lays contents (Text.lines text'.toList) ∧
      ofText .default none .table text' =
        (ofText .default none .table text : Except (SpecError Float) (Distribution Float)) := by
  intro text text' contents
  have hread :
      (TableDraft.read text : Except (SpecError Float) (TableDraft Float)).toOption.isSome := by
    simp only [TableDraft.read, Line.numbered, text]
    decide +kernel
  obtain ⟨t, ht⟩ := Option.isSome_iff_exists.1 hread
  have hperm : contents.Perm ((Line.numbered text).map Prod.snd) := by
    simp only [contents, Line.numbered, text, text', String.toList_append]
    decide +kernel
  have hlays : Line.Lays contents (Text.lines text'.toList) := Line.lays_lines text'
  exact ⟨t, toOption_eq_some.1 ht, hperm, hlays,
    ofText_rearranged (toOption_eq_some.1 ht) hperm hlays⟩

end JointProb
