/-
  JointProb — tables with one missing pattern.

      01: 0.6000005
      10: 0.3
      11: 0.1

  What is left of one goes to the missing pattern.  If the listed values sum to
  more than one there is nothing left, and the table is scaled.  With settings
  that have been checked it always can be, as far as the sum is accepted: the
  tolerance of sums is less than the band.

  * `Settings.tolerances_of_check`: what a check says of the two;
  * `Table.total_of_oneMissing`: the sum with the missing pattern;
  * `Table.abs_div_total_sub_le`: what scaling does to what is listed;
  * `Table.exists_missing`: what the missing pattern has;
  * `TableDraft.fill_of_oneMissing`: the table is completed, or too little is
    left;
  * `Distribution.ofText_of_one_missing`: so a text with one missing pattern
    describes a distribution near what it says, or has a negative remainder.
-/
import JointProb.Proofs.Spec.TableOrder

namespace JointProb

/-- The tolerance of sums is positive and less than the band. -/
theorem Settings.tolerances_of_check {s : Settings ℚ} (h : s.check = .ok ()) :
    0 < s.tolerances.sum ∧ s.tolerances.sum < s.tolerances.normalizationBand := by
  have hnil : s.problems = [] := by
    by_contra hne
    rw [check, if_neg (by simpa using hne)] at h
    cases h
  simp only [problems, List.append_eq_nil_iff, List.map_eq_nil_iff, List.filter_eq_nil_iff,
    List.forall_mem_cons] at hnil
  obtain ⟨⟨⟨⟨hsum, -⟩, hband⟩, -⟩, -⟩ := hnil
  have hfinite : Scalar.isFinite s.tolerances.sum = true := rfl
  split_ifs at hband with hrange hout
  simp only [hfinite, true_and, not_le] at hout
  exact ⟨by simpa [positive, hfinite] using hsum, hout⟩

/-- If all patterns but one are listed, the one that is not. -/
theorem Bits.exists_perm_all {width : Nat} {bs : List Bits}
    (hlength : ∀ b ∈ bs, b.length = width) (hnodup : bs.Nodup)
    (h : bs.length + 1 = 2 ^ width) :
    ∃ b, b ∉ bs ∧ (b :: bs).Perm (all width) := by
  obtain ⟨b, hb, hnew⟩ : ∃ b ∈ all width, b ∉ bs := by
    by_contra hall
    push Not at hall
    have hle := (List.subperm_of_subset (nodup_all width) hall).length_le
    rw [length_all] at hle
    omega
  have hsub : b :: bs ⊆ all width :=
    List.cons_subset.2 ⟨hb, fun a ha => mem_all.2 (hlength a ha)⟩
  have hperm := List.subperm_of_subset (List.nodup_cons.2 ⟨hnew, hnodup⟩) hsub
  exact ⟨b, hnew, hperm.perm_of_length_le (by rw [length_all, List.length_cons, h])⟩

namespace Table

variable {width : Nat} {entries : List (Bits × ℚ)}

/-! ## The sum -/

theorem completed_of_mem (hnodup : (entries.map Prod.fst).Nodup) {e : Bits × ℚ}
    (he : e ∈ entries) : completed width entries e.1 = e.2 := by
  rw [completed, (lookup_eq_some_iff_mem hnodup).2 he]
  rfl

theorem completed_of_notMem {b : Bits} (hb : b ∉ entries.map Prod.fst) :
    completed width entries b = remainder width entries := by
  rw [completed, lookup_eq_none_iff_notMem.2 hb]
  rfl

/-- With the missing pattern the sum is one, unless more is listed. -/
theorem total_of_oneMissing (hlength : ∀ e ∈ entries, e.1.length = width)
    (hnodup : (entries.map Prod.fst).Nodup) (hone : OneMissing width entries) :
    total width entries = max 1 (listed entries) := by
  obtain ⟨b, hb, hperm⟩ := Bits.exists_perm_all (List.forall_mem_map.2 hlength) hnodup
    (by rwa [List.length_map])
  have hlisted : (entries.map Prod.fst).map (completed width entries) = entries.map Prod.snd := by
    rw [List.map_map]
    exact List.map_congr_left fun e he => completed_of_mem hnodup he
  rw [total, ← (hperm.map _).sum_eq, List.map_cons, List.sum_cons, completed_of_notMem hb, hlisted,
    remainder, if_pos hone, ← listed, ← max_add_add_right, zero_add, sub_add_cancel, max_comm]

/-- Scaling by a sum of at least one moves probabilities by less than what is
    too much. -/
theorem abs_div_total_sub_le {total p : ℚ} (htotal : 1 ≤ total) (hp : IsProbability p) :
    |p / total - p| ≤ total - 1 := by
  obtain ⟨hnonneg, hle⟩ := hp
  have hpos : 0 < total := one_pos.trans_le htotal
  have hless : p / total ≤ p := div_le_self hnonneg htotal
  rw [abs_sub_comm, abs_of_nonneg (sub_nonneg.2 hless)]
  calc p - p / total = p / total * (total - 1) := by
        rw [mul_sub, div_mul_cancel₀ _ hpos.ne', mul_one]
    _ ≤ 1 * (total - 1) :=
      mul_le_mul_of_nonneg_right (hless.trans hle) (sub_nonneg.2 htotal)
    _ = total - 1 := one_mul _

/-- The missing pattern has what is left of one, also when all is scaled: there
    is nothing left unless the sum is one. -/
theorem exists_missing (hlength : ∀ e ∈ entries, e.1.length = width)
    (hnodup : (entries.map Prod.fst).Nodup) (hone : OneMissing width entries) :
    ∃ b : Bits, b.length = width ∧ b ∉ entries.map Prod.fst ∧
      completed width entries b / total width entries = max 0 (1 - listed entries) := by
  obtain ⟨b, hb, hperm⟩ := Bits.exists_perm_all (List.forall_mem_map.2 hlength) hnodup
    (by rwa [List.length_map])
  refine ⟨b, Bits.mem_all.1 (hperm.subset List.mem_cons_self), hb, ?_⟩
  rw [completed_of_notMem hb, total_of_oneMissing hlength hnodup hone, remainder, if_pos hone]
  rcases le_total (listed entries) 1 with hle | hle
  · rw [max_eq_left hle, div_one]
  · rw [max_eq_left (sub_nonpos.2 hle), zero_div]

end Table

namespace TableDraft

open Table

variable {settings : Settings ℚ} {c : Catalog} {width : Nat} {entries : List (Bits × ℚ)}

/-! ## The table -/

/-- **The table is completed** with what is left of one. -/
theorem fill_of_oneMissing (hsettings : settings.check = .ok ()) (hsize : c.size = 2 ^ width)
    (hlength : ∀ e ∈ entries, e.1.length = width) (hnodup : (entries.map Prod.fst).Nodup)
    (hone : OneMissing width entries) (hle : listed entries ≤ 1 + settings.tolerances.sum) :
    ∃ d, fill settings c (entries.map fun e => (e.1.number, e.2)) = .ok d ∧ d.catalog = c ∧
      total width entries ≤ 1 + settings.tolerances.sum ∧ ∀ b : Bits, b.length = width →
        d.probs[b.number]? = some (completed width entries b / total width entries) := by
  obtain ⟨hpos, hband⟩ := Settings.tolerances_of_check hsettings
  have htotal := total_of_oneMissing hlength hnodup hone
  have hfill := fillMissing_eq settings.tolerances.sum hlength hnodup
  rw [← hsize, if_neg fun h => absurd h.2 (by linarith)] at hfill
  have hbelow : total width entries ≤ 1 + settings.tolerances.sum := by
    rw [htotal]
    exact max_le (by linarith) hle
  have habove : 1 ≤ total width entries := htotal ▸ le_max_left _ _
  -- more than one by the tolerance at most, so within the band of a sum that is one or more
  have hnear : |total width entries - 1| ≤
      settings.tolerances.normalizationBand * total width entries := by
    rw [abs_of_nonneg (sub_nonneg.2 habove)]
    calc total width entries - 1 ≤ settings.tolerances.normalizationBand := by linarith
      _ ≤ settings.tolerances.normalizationBand * total width entries :=
        le_mul_of_one_le_right (hpos.trans hband).le habove
  obtain ⟨d, hd, hcatalog, hprobs⟩ := fill_eq_ok hfill (one_pos.trans_le habove) hnear
  refine ⟨d, hd, hcatalog, hbelow, fun b hb => ?_⟩
  have hget : (Bits.all width)[b.number]? = some b := hb ▸ b.getElem?_all
  rw [hprobs, List.getElem?_map, List.getElem?_map, hget]
  rfl

/-- **Too little is left.** -/
theorem fill_of_negative (hsize : c.size = 2 ^ width) (hlength : ∀ e ∈ entries, e.1.length = width)
    (hnodup : (entries.map Prod.fst).Nodup) (hone : OneMissing width entries)
    (hlt : 1 + settings.tolerances.sum < listed entries) :
    fill settings c (entries.map fun e => (e.1.number, e.2)) =
      .error (.negativeResidual (listed entries) (1 - listed entries)) := by
  have hfill := fillMissing_eq settings.tolerances.sum hlength hnodup
  rw [← hsize, if_pos ⟨hone, by linarith⟩] at hfill
  exact fill_eq_error hfill

end TableDraft

/-! ## Texts -/

theorem Catalog.encode_boolean {names : List String} {b : Bits} (hb : b.length = names.length) :
    (of (names.map Variable.boolean)).encode b.states = b.number := by
  rw [encode, cardinalities_boolean, ← hb, Bits.number]

namespace Distribution

/-- The table of a text that is read, by number, if its catalog is accepted. -/
theorem exists_ofText_eq_fill {α : Type} [Scalar α] {settings : Settings α}
    {given : Option (List String)} {text : String} {t : TableDraft α} {width : Nat} {c : Catalog}
    (ht : TableDraft.read text = .ok t) (hwidth : t.width = (.ok width : Except (SpecError α) Nat))
    (hc : (Catalog.ofNames (t.chooseNames given width) settings.maxAssignments :
      Except (SpecError α) Catalog) = .ok c) :
    ∃ entries : List (Bits × α),
      List.Forall₂ (fun e (x : Bits × α) => e.pattern = x.1.text ∧ e.value = x.2) t.entries
        entries ∧
      (∀ e ∈ entries, e.1.length = width) ∧ (entries.map Prod.fst).Nodup ∧
      ofText settings given .table text =
        TableDraft.fill settings c (entries.map fun e => (e.1.number, e.2)) := by
  obtain ⟨entries, hentries, hlength, hnodup, hnumbered⟩ :=
    TableDraft.exists_numbered ht hwidth hc
  rw [List.map_map] at hnodup
  refine ⟨entries, hentries, hlength, .of_map Bits.number (by rwa [List.map_map]), ?_⟩
  rw [ofText, ofTable, ht]
  simp only [Except.bind, TableDraft.complete, hwidth, hc, hnumbered, bind]

/-- **A text with one missing pattern**, with settings that have been checked:
    its sum is never out of the band.  Either too little is left for the missing
    pattern, or it has what is left, nothing if this is less, and what is listed
    is there up to the tolerance of sums. -/
theorem ofText_of_one_missing {settings : Settings ℚ} {given : Option (List String)}
    {text : String} {t : TableDraft ℚ} {width : Nat} {c : Catalog}
    (hsettings : settings.check = .ok ()) (ht : TableDraft.read text = .ok t)
    (hwidth : t.width = (.ok width : Except (SpecError ℚ) Nat))
    (hc : (Catalog.ofNames (t.chooseNames given width) settings.maxAssignments :
      Except (SpecError ℚ) Catalog) = .ok c)
    (hone : t.entries.length + 1 = c.size) :
    let result := ofText settings given .table text
    let sum := (t.entries.map TableEntry.value).sum
    let tolerance := settings.tolerances.sum
    (∀ s, result ≠ .error (.sumAboveBand s) ∧ result ≠ .error (.sumBelowBand s)) ∧
    (result = .error (.negativeResidual sum (1 - sum)) ↔ 1 + tolerance < sum) ∧
    (sum ≤ 1 + tolerance → ∃ d, result = .ok d ∧ d.catalog = c ∧
      (∀ e ∈ t.entries, ∃ (b : Bits) (p : ℚ), b.text = e.pattern ∧
        d.probs[c.encode b.states]? = some p ∧ |p - e.value| ≤ tolerance) ∧
      ∃ b : Bits, b.length = width ∧ (∀ e ∈ t.entries, b.text ≠ e.pattern) ∧
        d.probs[c.encode b.states]? = some (max 0 (1 - sum))) := by
  obtain ⟨entries, hentries, hlength, hnodup, htext⟩ :=
    exists_ofText_eq_fill ht hwidth hc
  have hsound := TableDraft.sound_of_read ht
  obtain rfl := Catalog.of_ofVariables hc
  have hnames := t.length_chooseNames given width
  have hsize : (Catalog.of ((t.chooseNames given width).map Variable.boolean)).size =
      2 ^ width := by
    rw [Catalog.size_boolean, hnames]
  have hmissing : Table.OneMissing width entries := by
    rw [Table.OneMissing, ← hentries.length_eq, hone, hsize]
  have hvalues : t.entries.map TableEntry.value = entries.map Prod.snd := by
    rw [← List.forall₂_eq_eq_eq, List.forall₂_map_left_iff, List.forall₂_map_right_iff]
    exact hentries.imp fun _ _ h => h.2
  intro result sum tolerance
  have hsum : sum = Table.listed entries := by rw [Table.listed, ← hvalues]
  rcases lt_or_ge (1 + tolerance) sum with hlt | hle
  · have herror : result = .error (.negativeResidual sum (1 - sum)) := by
      rw [hsum] at hlt ⊢
      exact htext.trans (TableDraft.fill_of_negative hsize hlength hnodup hmissing hlt)
    exact ⟨fun s => by simp [herror], iff_of_true herror hlt, fun h => absurd hlt h.not_gt⟩
  · rw [hsum] at hle
    obtain ⟨d, hd, hcatalog, hbelow, hprobs⟩ :=
      TableDraft.fill_of_oneMissing hsettings hsize hlength hnodup hmissing hle
    have hok : result = .ok d := htext.trans hd
    have hprob (b : Bits) (hb : b.length = width) :
        d.probs[(Catalog.of ((t.chooseNames given width).map Variable.boolean)).encode b.states]? =
          some (Table.completed width entries b / Table.total width entries) := by
      rw [Catalog.encode_boolean (hb.trans hnames.symm), hprobs b hb]
    have htotal := Table.total_of_oneMissing hlength hnodup hmissing
    refine ⟨fun s => by simp [hok], iff_of_false (by simp [hok]) (hsum ▸ hle).not_gt,
      fun _ => ⟨d, hok, hcatalog, fun e he => ?_, ?_⟩⟩
    · obtain ⟨x, hx, hpattern, hvalue⟩ := exists_right_of_forall₂ hentries he
      refine ⟨x.1, _, hpattern.symm, hprob x.1 (hlength x hx), ?_⟩
      rw [Table.completed_of_mem hnodup hx, ← hvalue]
      have hone := htotal ▸ le_max_left 1 (Table.listed entries)
      exact (Table.abs_div_total_sub_le hone (hsound e he).2).trans (by linarith)
    · obtain ⟨b, hwidth, hb, hvalue⟩ := Table.exists_missing hlength hnodup hmissing
      refine ⟨b, hwidth, fun e he heq => ?_, ?_⟩
      · obtain ⟨x, hx, hpattern, -⟩ := exists_right_of_forall₂ hentries he
        rw [hpattern] at heq
        exact hb (Bits.text_injective heq ▸ List.mem_map_of_mem hx)
      · rw [hprob b hwidth, hvalue, hsum]

/-- The table of the header of this file: nothing is left for the pattern `00`. -/
theorem ofText_of_one_missing_above :
    let text := "01: 0.6000005\n10: 0.3\n11: 0.1"
    let c := Catalog.of [.boolean "A", .boolean "B"]
    ∃ t : TableDraft ℚ, (Settings.default : Settings ℚ).check = .ok () ∧
      TableDraft.read text = .ok t ∧ t.width = (.ok 2 : Except (SpecError ℚ) Nat) ∧
      (Catalog.ofNames (t.chooseNames none 2) (Settings.default : Settings ℚ).maxAssignments :
        Except (SpecError ℚ) Catalog) = .ok c ∧ t.entries.length + 1 = c.size ∧
      ∃ d : Distribution ℚ, ofText .default none .table text = .ok d ∧ d.catalog = c ∧
        ∃ b : Bits, b.length = 2 ∧ (∀ e ∈ t.entries, b.text ≠ e.pattern) ∧
          d.probs[c.encode b.states]? = some 0 := by
  intro text c
  have hread : (TableDraft.read text : Except (SpecError ℚ) _).toOption.map (fun t =>
      ((t.width : Except (SpecError ℚ) Nat).toOption, t.chooseNames none 2, t.entries.length,
        (t.entries.map TableEntry.value).sum)) = some (some 2, ["A", "B"], 3, 1.0000005) := by
    simp only [TableDraft.read, Line.numbered, text]
    decide +kernel
  obtain ⟨t, ht, hfacts⟩ := Option.map_eq_some_iff.1 hread
  simp only [Prod.mk.injEq, toOption_eq_some] at ht hfacts
  obtain ⟨hwidth, hnames, hlength, hsum⟩ := hfacts
  have hcheck : (Settings.default : Settings ℚ).check = .ok () := by decide +kernel
  have hc : (Catalog.ofNames (t.chooseNames none 2) (Settings.default : Settings ℚ).maxAssignments :
      Except (SpecError ℚ) Catalog) = .ok c := by
    rw [hnames]
    decide +kernel
  have hone : t.entries.length + 1 = c.size := by
    rw [hlength]
    decide
  obtain ⟨-, -, hok⟩ := ofText_of_one_missing hcheck ht hwidth hc hone
  rw [hsum] at hok
  obtain ⟨d, hd, hcatalog, -, b, hb, hnew, hprob⟩ := hok (by decide +kernel)
  refine ⟨t, hcheck, ht, hwidth, hc, hone, d, hd, hcatalog, b, hb, hnew, hprob.trans ?_⟩
  decide +kernel

end Distribution

end JointProb
