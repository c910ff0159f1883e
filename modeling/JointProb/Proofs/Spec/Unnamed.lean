/-
  JointProb — tables without names of their own.

      variables: Rain      one name for two digits: it is dropped, and the
      00: 0.5              variables are A and B
      11: 0.5

  Names that are not as many as the digits do not count, whether they are given
  or stand in the header, and the default ones are taken in their place.

  * `TableDraft.Unnamed` says of a table that no names count;
  * `TableDraft.DefaultNamed` has what is said of the default names of a number of
    variables and of the tables that fall back on them;
  * `TableDraft.defaultNamed`: so it is for every number of variables.  Nothing is
    ever wrong with these names, so that such a table is too large for the cap, or
    is over their catalog, or has a wrong sum.
-/
import JointProb.Proofs.Catalog.DefaultNames
import JointProb.Proofs.Spec.Slots

namespace JointProb.TableDraft

variable {α : Type} [Scalar α]

/-- The names that would be taken, given ones before those of the header, are not
    as many as there are digits, or there are none. -/
def Unnamed (t : TableDraft α) (given : Option (List String)) (width : Nat) : Prop :=
  ∀ names ∈ given.or t.header, names.length ≠ width

/-- What is said of the default names of a number of variables. -/
structure DefaultNamed (α : Type) [Scalar α] (count : Nat) : Prop where
  /-- They are the letters, and then `V` with the position. -/
  names_eq : defaultNames count =
    ("ABCDEFGHIJKLMNOPQRSTUVWXYZ".toList.map String.singleton).take count ++
      (List.range' 26 (count - 26)).map fun i => "V" ++ toString i
  length_eq : (defaultNames count).length = count
  /-- No letter is `V` with a position, and positions are written differently, -/
  letter_ne {i j : Nat} (hi : i < 26) (hj : 26 ≤ j) : defaultName i ≠ defaultName j
  eq_of_numbered {i j : Nat} (hi : 26 ≤ i) (hj : 26 ≤ j) (h : defaultName i = defaultName j) : i = j
  /-- so that the names are distinct; and queries can spell them. -/
  nodup : (defaultNames count).Nodup
  isIdentifier : ∀ name ∈ defaultNames count, isIdentifier name
  /-- They have a catalog unless it has too many assignments, -/
  ofNames_eq (cap : Nat) :
    (Catalog.ofNames (defaultNames count) cap : Except (SpecError α) Catalog) =
      if cap < 2 ^ count ∨ Text.wordLimit ≤ 2 ^ count then
        .error (.spaceTooLarge (min (2 ^ count) Catalog.countLimit) cap)
      else .ok (.of ((defaultNames count).map Variable.boolean))
  /-- which only the cap decides if it is a word. -/
  exists_catalog_iff {cap : Nat} (hcap : cap < Text.wordLimit) :
    (∃ c, (Catalog.ofNames (defaultNames count) cap : Except (SpecError α) Catalog) = .ok c) ↔
      2 ^ count ≤ cap
  /-- Tables fall back on them if no names count, -/
  chooseNames_eq {t : TableDraft α} {given : Option (List String)} (h : t.Unnamed given count) :
    t.chooseNames given count = defaultNames count
  /-- and are then too large for the cap, or over their catalog, or have a wrong
      sum. -/
  ends_ofText {text : String} {t : TableDraft α} {given : Option (List String)}
    (settings : Settings α) (ht : read text = .ok t)
    (hwidth : t.width = (.ok count : Except (SpecError α) Nat)) (h : t.Unnamed given count) :
    if settings.maxAssignments < 2 ^ count ∨ Text.wordLimit ≤ 2 ^ count then
      Distribution.ofText settings given .table text =
        .error (.spaceTooLarge (min (2 ^ count) Catalog.countLimit) settings.maxAssignments)
    else Ends IsSumFault (fun d => d.catalog = .of ((defaultNames count).map Variable.boolean))
      (Distribution.ofText settings given .table text)

omit [Scalar α] in
/-- The default names have a catalog, unless it has too many assignments. -/
theorem ofNames_defaultNames (count cap : Nat) :
    (Catalog.ofNames (defaultNames count) cap : Except (SpecError α) Catalog) =
      if cap < 2 ^ count ∨ Text.wordLimit ≤ 2 ^ count then
        .error (.spaceTooLarge (min (2 ^ count) Catalog.countLimit) cap)
      else .ok (.of ((defaultNames count).map Variable.boolean)) := by
  have hid : ∀ n ∈ defaultNames count, isIdentifier n :=
    fun _ hn => isIdentifier_of_mem_defaultNames hn
  have h := Catalog.ofNames_eq (α := α) hid (nodup_defaultNames count) cap
  rwa [length_defaultNames] at h

omit [Scalar α] in
theorem Unnamed.chooseNames_eq {t : TableDraft α} {given : Option (List String)} {width : Nat}
    (h : t.Unnamed given width) : t.chooseNames given width = defaultNames width := by
  rw [chooseNames]
  cases hnames : given.or t.header with
  | none => rfl
  | some names => exact if_neg (h names hnames)

theorem ofText_of_read {text : String} {t : TableDraft α} (ht : read text = .ok t)
    (settings : Settings α) (given : Option (List String)) :
    Distribution.ofText settings given .table text = t.complete settings given := by
  rw [Distribution.ofText, Distribution.ofTable, ht]
  rfl

/-- **Default names are never at fault**: they are distinct identifiers, however
    many there are, and tables that fall back on them fail for their size or
    their sum only. -/
theorem defaultNamed (count : Nat) : DefaultNamed α count where
  names_eq := defaultNames_eq count
  length_eq := length_defaultNames count
  letter_ne := letter_ne_numbered
  eq_of_numbered := eq_of_numbered
  nodup := nodup_defaultNames count
  isIdentifier _ h := isIdentifier_of_mem_defaultNames h
  ofNames_eq := ofNames_defaultNames count
  exists_catalog_iff {cap} hcap := by
    rw [ofNames_defaultNames]
    split_ifs with hlarge
    · refine iff_of_false (by simp) fun hle => ?_
      omega
    · refine iff_of_true ⟨_, rfl⟩ ?_
      omega
  chooseNames_eq h := h.chooseNames_eq
  ends_ofText {text t given} settings ht hwidth h := by
    have hcatalog := ofNames_defaultNames (α := α) count settings.maxAssignments
    rw [← h.chooseNames_eq] at hcatalog
    rw [ofText_of_read ht, complete, hwidth]
    simp only [bind, Except.bind]
    split_ifs at hcatalog ⊢ with hlarge
    · rw [hcatalog]
    · -- the entries of what has been read are in slots of the catalog
      obtain ⟨cells, hslots⟩ := exists_slotted ht hwidth hcatalog
      simp only [hcatalog, hslots.numbered_eq]
      rw [← h.chooseNames_eq]
      exact ends_fill ..

/-- Two digits, three names given and one in the header: none of them counts.  A
    cap of three assignments is one too low. -/
theorem defaultNamed_two :
    let text := "variables: Rain\n00: 0.25\n01: 0.25\n10: 0.25\n11: 0.25"
    let given := some ["P", "Q", "R"]
    let settings : Settings ℚ := .default
    ∃ t : TableDraft ℚ, read text = .ok t ∧ t.width = (.ok 2 : Except (SpecError ℚ) Nat) ∧
      t.Unnamed given 2 ∧ t.Unnamed none 2 ∧
      (∃ d, Distribution.ofText settings given .table text = .ok d ∧ d.catalog.names = ["A", "B"]) ∧
      Distribution.ofText { settings with maxAssignments := 3 } none .table text =
        .error (.spaceTooLarge 4 3) := by
  intro text given settings
  have hread : (read text : Except (SpecError ℚ) _).toOption.map (fun t =>
      ((t.width : Except (SpecError ℚ) Nat).toOption, t.header)) = some (some 2, some ["Rain"]) := by
    simp only [read, Line.numbered, text]
    decide +kernel
  obtain ⟨t, ht, hfacts⟩ := Option.map_eq_some_iff.1 hread
  simp only [Prod.mk.injEq, toOption_eq_some] at ht hfacts
  obtain ⟨hwidth, hheader⟩ := hfacts
  have hgiven : t.Unnamed given 2 := by
    rintro _ ⟨⟩
    decide
  have hnone : t.Unnamed none 2 := by
    rw [Unnamed, hheader]
    rintro _ ⟨⟩
    decide
  have hok : (Distribution.ofText settings given .table text).toOption.isSome := by
    decide +kernel
  obtain ⟨d, hd⟩ := Option.isSome_iff_exists.1 hok
  rw [toOption_eq_some] at hd
  have hends := (defaultNamed 2).ends_ofText settings ht hwidth hgiven
  rw [if_neg (by decide), hd] at hends
  have hlarge := (defaultNamed 2).ends_ofText { settings with maxAssignments := 3 } ht hwidth hnone
  rw [if_pos (.inl (by decide))] at hlarge
  refine ⟨t, ht, hwidth, hgiven, hnone, ⟨d, hd, ?_⟩, hlarge⟩
  rw [show d.catalog = _ from hends]
  decide

end JointProb.TableDraft
