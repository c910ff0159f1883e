/-
  JointProb — patterns as numbers, and the slots of a table.

      01: 0.6        pattern 01 is number 1 of 4, pattern 10 is number 2;
      10: 0.4        slots 0 and 3 stay free: two patterns are missing

  The entries of a table are put in slots one after the other, each in the one
  with its pattern's number, and missing ones are counted by their difference.
  Both are right because each entry has a slot, and none has another one's.

  * `Catalog.NumbersPatterns` says that the patterns of a width and the numbers
    of the assignments of a catalog are the same thing in two forms, with
    `Decimal.padded` from the numbers to the patterns;
  * `Slots` are what has been put where; `Slots.Holds.put` is one more entry,
    `Slots.holds_ofCells` all of them;
  * `TableDraft.Slotted` says of a table that has been read that its entries
    have slots of their own and that those left are the missing ones;
  * `TableDraft.slots_of_accepted`: so it is if the catalog is accepted, and no
    pattern is ever refused that late.
-/
import JointProb.Proofs.Catalog.Encoding
import JointProb.Proofs.Spec.Catalog
import JointProb.Proofs.Spec.OneMissing
import JointProb.Spec.Serialize

namespace JointProb

open Text

variable {α : Type}

/-! ## Patterns -/

/-- The states that the digits of a pattern stand for. -/
def Line.patternStates (pattern : List Char) : List Nat := pattern.map fun c => c.toNat - '0'.toNat

namespace Bits

theorem patternStates_text (b : Bits) : Line.patternStates b.text = b.states := by
  rw [Line.patternStates, text, List.map_map, states]
  refine List.map_congr_left fun x _ => ?_
  cases x <;> rfl

/-- Texts of zeros and ones are patterns of assignments. -/
theorem exists_text_eq_of_isPattern {pattern : List Char} (h : Line.isPattern pattern) :
    ∃ b : Bits, b.text = pattern :=
  exists_text_eq (by simpa [Line.isPattern] using h)

/-- Each number below the power of two is that of an assignment. -/
theorem exists_number_eq {width i : Nat} (h : i < 2 ^ width) :
    ∃ b : Bits, b.length = width ∧ b.number = i := by
  have hmem : i ∈ (all width).map number := map_number_all width ▸ List.mem_range.2 h
  obtain ⟨b, hb, hi⟩ := List.mem_map.1 hmem
  exact ⟨b, mem_all.1 hb, hi⟩

end Bits

namespace Catalog

/-- The patterns of a width are the numbers of assignments in another form. -/
structure NumbersPatterns (c : Catalog) (width : Nat) : Prop where
  /-- A pattern is read as the number of the assignment that it stands for,
      which words can compute, and is what is written for this number. -/
  exists_number {pattern : List Char} (hpattern : Line.isPattern pattern)
    (hwidth : pattern.length = width) :
    ∃ i, readNumeral? 2 pattern = some i ∧ i < c.size ∧
      i = c.encode (Line.patternStates pattern) ∧
      MixedRadix.wordValue? c.placeValues (Line.patternStates pattern) = some i ∧
      Decimal.padded 2 width i = pattern
  /-- What is written for a number is a pattern, which is read as the number. -/
  isPattern_padded {i : Nat} (hi : i < c.size) : Line.isPattern (Decimal.padded 2 width i) ∧
    (Decimal.padded 2 width i).length = width ∧
    readNumeral? 2 (Decimal.padded 2 width i) = some i
  /-- Different patterns have different numbers. -/
  pattern_inj {p q : List Char} (hp : Line.isPattern p) (hq : Line.isPattern q)
    (hpw : p.length = width) (hqw : q.length = width)
    (h : readNumeral? 2 p = readNumeral? 2 q) : p = q
  /-- The line of a number in a table that is written starts with its pattern. -/
  writtenEntry_eq {β : Type} [DecimalText β] {pattern : List Char} {i : Nat}
    (hpattern : Line.isPattern pattern) (hwidth : pattern.length = width)
    (h : readNumeral? 2 pattern = some i) (p : β) : writtenEntry c.vars.length i p =
      String.ofList pattern ++ ": " ++ DecimalText.fixed writtenPlaces p ++ "\n"

/-- **Patterns number the assignments** of variables with two states. -/
theorem numbersPatterns {names : List String} {cap : Nat} {c : Catalog} (hne : names ≠ [])
    (hc : (ofNames names cap : Except (SpecError α) Catalog) = .ok c) :
    c.NumbersPatterns names.length := by
  obtain ⟨-, -, -, hword, -⟩ := ofVariables_eq_ok_iff.1 hc
  obtain rfl := of_ofVariables hc
  rw [size_boolean] at hword
  have hbits {b : Bits} (hb : b.length = names.length) : b ≠ [] := by
    rintro rfl
    exact hne (List.length_eq_zero_iff.1 hb.symm)
  have hread {b : Bits} (hb : b.length = names.length) :
      readNumeral? 2 b.text = some b.number :=
    Bits.readNumeral?_text (hbits hb) (hb ▸ hword.le)
  have hpadded {b : Bits} (hb : b.length = names.length) :
      Decimal.padded 2 names.length b.number = b.text :=
    hb ▸ Bits.padded_number (hbits hb)
  constructor
  case exists_number =>
    intro pattern hpattern hwidth
    obtain ⟨b, rfl⟩ := Bits.exists_text_eq_of_isPattern hpattern
    rw [Bits.length_text] at hwidth
    have hrange : InRange (of (names.map Variable.boolean)) b.states := by
      rw [InRange, cardinalities_boolean, ← hwidth]
      exact b.below_states
    have hvalue := MixedRadix.wordValue?_eq_some hrange (by rwa [← size, size_boolean])
    rw [Bits.patternStates_text, encode_boolean hwidth, size_boolean]
    refine ⟨_, hread hwidth, hwidth ▸ b.number_lt, rfl, ?_, hpadded hwidth⟩
    rwa [← encode, encode_boolean hwidth] at hvalue
  case isPattern_padded =>
    intro i hi
    rw [size_boolean] at hi
    obtain ⟨b, hb, rfl⟩ := Bits.exists_number_eq hi
    rw [hpadded hb]
    exact ⟨b.isPattern_text, b.length_text.trans hb, hread hb⟩
  case pattern_inj =>
    intro p q hp hq hpw hqw h
    obtain ⟨a, rfl⟩ := Bits.exists_text_eq_of_isPattern hp
    obtain ⟨b, rfl⟩ := Bits.exists_text_eq_of_isPattern hq
    rw [Bits.length_text] at hpw hqw
    rw [hread hpw, hread hqw] at h
    rw [Bits.number_inj (hpw.trans hqw.symm) (Option.some.inj h)]
  case writtenEntry_eq =>
    intro β _ pattern i hpattern hwidth h p
    obtain ⟨b, rfl⟩ := Bits.exists_text_eq_of_isPattern hpattern
    rw [Bits.length_text] at hwidth
    rw [hread hwidth] at h
    cases h
    rw [writtenEntry, vars_of, List.length_map, hpadded hwidth]

end Catalog

/-! ## Slots -/

variable [Scalar α]

/-- What has been put in the slots of a table, and which of them have been
    filled. -/
structure Slots (α : Type) where
  probs : List α
  present : List Bool

namespace Slots

variable {size : Nat} {cells : List (Nat × α)} {s : Slots α}

def empty (size : Nat) : Slots α := ⟨List.replicate size 0, List.replicate size false⟩

omit [Scalar α] in
/-- Put a probability in a slot. -/
def put (s : Slots α) (cell : Nat × α) : Slots α :=
  ⟨s.probs.set cell.1 cell.2, s.present.set cell.1 true⟩

/-- The slots after all entries, one after the other. -/
def ofCells (size : Nat) (cells : List (Nat × α)) : Slots α := cells.foldl put (empty size)

/-- How many slots are free. -/
def free (s : Slots α) : Nat := s.present.count false

/-- The first one of them. -/
def firstFree? (s : Slots α) : Option Nat := s.present.findIdx? (!·)

/-- The probabilities if a number of entries is missing: a single one has what is
    left. -/
def complete (tolerance : α) (s : Slots α) (missing : Nat) : Except (SpecError α) (List α) :=
  if missing = 1 then
    let sum := Weights.compensatedSum s.probs
    let residual := 1 - sum
    if residual < -tolerance then .error (.negativeResidual sum residual)
    else .ok <| match s.firstFree? with
      | some slot => s.probs.set slot (Scalar.positivePart residual)
      | none => s.probs
  else .ok s.probs

/-- The slots have the entries, and as many are free as there are not entries. -/
structure Holds (size : Nat) (cells : List (Nat × α)) (s : Slots α) : Prop where
  probs_eq : s.probs = TableDraft.spread size cells
  present_eq : s.present = (List.range size).map fun i => (cells.lookup i).isSome
  free_add : s.free + cells.length = size

theorem holds_empty (size : Nat) : (empty size : Slots α).Holds size [] where
  probs_eq := by simp [empty, TableDraft.spread]
  present_eq := by simp [empty]
  free_add := by simp [empty, free]

omit [Scalar α] in
/-- What is put in a slot that is free is found there, and all else where it
    was. -/
theorem map_lookup_concat {β : Type} (f : Option α → β) {i : Nat} (p : α)
    (hnew : i ∉ cells.map Prod.fst) :
    ((List.range size).map fun j => f (cells.lookup j)).set i (f (some p)) =
      (List.range size).map fun j => f ((cells ++ [(i, p)]).lookup j) := by
  refine List.ext_getElem (by simp) fun j hj hj' => ?_
  rw [List.getElem_set]
  simp only [List.getElem_map, List.getElem_range, List.lookup_append]
  split_ifs with hij
  · subst hij
    simp [lookup_eq_none_iff_notMem.2 hnew]
  · have hne : j ≠ i := Ne.symm hij
    simp [List.lookup_cons, beq_false_of_ne hne]

/-- **One more entry**, in a slot that is free. -/
theorem Holds.put (h : s.Holds size cells) (cell : Nat × α) (hlt : cell.1 < size)
    (hnew : cell.1 ∉ cells.map Prod.fst) : (s.put cell).Holds size (cells ++ [cell]) where
  probs_eq := by
    rw [Slots.put, h.probs_eq]
    exact map_lookup_concat (fun p => p.getD 0) cell.2 hnew
  present_eq := by
    rw [Slots.put, h.present_eq]
    exact map_lookup_concat Option.isSome cell.2 hnew
  free_add := by
    have hlength : cell.1 < s.present.length := by
      rwa [h.present_eq, List.length_map, List.length_range]
    have hfree : s.present[cell.1] = false := by
      simp [h.present_eq, lookup_eq_none_iff_notMem.2 hnew]
    have hpos : 0 < s.present.count false := List.count_pos_iff.2 (hfree ▸ List.getElem_mem hlength)
    have hcount : (s.put cell).free = s.free - 1 := by
      simp [free, Slots.put, List.count_set hlength, hfree]
    have hsum := h.free_add
    rw [hcount, List.length_append, List.length_singleton]
    rw [free] at hsum ⊢
    omega

/-- **All entries have slots of their own.** -/
theorem holds_ofCells (hlt : ∀ x ∈ cells, x.1 < size) (hnodup : (cells.map Prod.fst).Nodup) :
    (ofCells size cells).Holds size cells := by
  -- on the entries from the last one on, which is the one that is put last
  induction cells using List.reverseRecOn with
  | nil => exact holds_empty size
  | append_singleton cells cell ih =>
    rw [List.forall_mem_append] at hlt
    rw [List.map_append, List.map_singleton, List.nodup_append_comm, List.singleton_append,
      List.nodup_cons] at hnodup
    rw [ofCells, List.foldl_append]
    exact (ih hlt.1 hnodup.2).put cell (hlt.2 cell (by simp)) hnodup.1

/-- The only slot that is free is filled as if there were an entry for it. -/
theorem Holds.set_firstFree (h : s.Holds size cells) (hone : s.free = 1) {i : Nat}
    (hi : s.firstFree? = some i) (p : α) :
    s.probs.set i p = (List.range size).map fun j => (cells.lookup j).getD p := by
  obtain ⟨hlength, hfree, -⟩ := List.findIdx?_eq_some_iff_getElem.1 hi
  have hlt : i < size := by simpa [h.present_eq] using hlength
  have hnew : i ∉ cells.map Prod.fst := by
    rw [← lookup_eq_none_iff_notMem]
    simpa [h.present_eq] using hfree
  -- with an entry for it none is free, so something is found in each
  have hput := h.put (i, p) hlt hnew
  have hnone : (s.put (i, p)).free = 0 := by
    have hsum := h.free_add
    have hsum' := hput.free_add
    rw [List.length_append, List.length_singleton] at hsum'
    omega
  refine hput.probs_eq.trans (List.map_congr_left fun j hj => ?_)
  have hsome : ((cells ++ [(i, p)]).lookup j).isSome := by
    rw [free, List.count_eq_zero, hput.present_eq] at hnone
    by_contra hfalse
    exact hnone (List.mem_map.2 ⟨j, hj, Bool.eq_false_iff.2 hfalse⟩)
  rw [List.lookup_append] at hsome ⊢
  cases hj : cells.lookup j with
  | some q => rfl
  | none =>
    rw [hj, Option.none_or, List.lookup_cons] at hsome
    rw [Option.none_or, List.lookup_cons]
    cases hji : j == i with
    | true => rfl
    | false => simp [hji] at hsome

omit [Scalar α] in
theorem exists_firstFree (h : s.free ≠ 0) : ∃ i, s.firstFree? = some i := by
  rw [← Option.isSome_iff_exists, firstFree?, List.findIdx?_isSome, List.any_eq_true]
  exact ⟨false, List.count_pos_iff.1 (Nat.pos_of_ne_zero h), rfl⟩

/-- **What is missing is filled in** where the slots are free. -/
theorem Holds.complete_eq (h : s.Holds size cells) (tolerance : α) :
    s.complete tolerance s.free = TableDraft.fillMissing tolerance size cells := by
  have hmissing : size - cells.length = s.free := by
    have hsum := h.free_add
    omega
  rw [complete, TableDraft.fillMissing, hmissing, ← h.probs_eq]
  split_ifs with hone
  · obtain ⟨i, hi⟩ := exists_firstFree (s := s) (by rw [hone]; exact Nat.one_ne_zero)
    simp only [hi, h.set_firstFree hone hi]
  · rfl

end Slots

/-! ## Tables -/

namespace TableDraft

variable {t : TableDraft α}

/-- The entries of a table have slots of their own, of a number of them. -/
structure Slotted (t : TableDraft α) (size : Nat) (cells : List (Nat × α)) : Prop where
  /-- Each pattern is a numeral, -/
  numbered_eq : t.numbered = (.ok cells : Except (SpecError α) _)
  length_eq : cells.length = t.entries.length
  /-- that of a slot, -/
  lt_size : ∀ cell ∈ cells, cell.1 < size
  /-- and no other pattern is. -/
  nodup : (cells.map Prod.fst).Nodup
  /-- One after the other, the entries fill these slots. -/
  holds : (Slots.ofCells size cells).Holds size cells
  /-- There are not more entries than slots, -/
  length_le : t.entries.length ≤ size
  /-- and the difference is the number of slots that are free. -/
  free_eq : size - t.entries.length = (Slots.ofCells size cells).free
  /-- So a single missing entry is found, and completed. -/
  complete_eq (tolerance : α) : fillMissing tolerance size cells =
    (Slots.ofCells size cells).complete tolerance (size - t.entries.length)

theorem exists_slotted {text : String} {given : Option (List String)} {width cap : Nat}
    {c : Catalog} (ht : read text = .ok t)
    (hwidth : t.width = (.ok width : Except (SpecError α) Nat))
    (hc : (Catalog.ofNames (t.chooseNames given width) cap : Except (SpecError α) Catalog) =
      .ok c) :
    ∃ cells, t.Slotted c.size cells := by
  obtain ⟨entries, hentries, hlength, hnodup, hnumbered⟩ := exists_numbered ht hwidth hc
  have hsize : c.size = 2 ^ width := by
    obtain rfl := Catalog.of_ofVariables hc
    rw [Catalog.size_boolean, length_chooseNames]
  have hlt : ∀ cell ∈ entries.map fun e => (e.1.number, e.2), cell.1 < c.size := by
    rw [List.forall_mem_map, hsize]
    exact fun e he => hlength e he ▸ e.1.number_lt
  have hholds := Slots.holds_ofCells hlt hnodup
  have hcount : (entries.map fun e => (e.1.number, e.2)).length = t.entries.length := by
    rw [List.length_map, hentries.length_eq]
  have hsum := hholds.free_add
  rw [hcount] at hsum
  have hfree : c.size - t.entries.length = (Slots.ofCells c.size _).free :=
    Nat.sub_eq_of_eq_add hsum.symm
  refine ⟨_, hnumbered, hcount, hlt, hnodup, hholds, by omega, hfree, fun tolerance => ?_⟩
  rw [hfree, hholds.complete_eq]

/-- A fault that is not about a pattern. -/
def NoInvalidPattern (e : SpecError α) : Prop := ∀ line pattern, e ≠ .invalidPattern line pattern

omit [Scalar α] in
theorem ends_ofNames (names : List String) (cap : Nat) :
    Ends (NoInvalidPattern (α := α)) (fun _ => True) (Catalog.ofNames names cap) := by
  rw [Catalog.ofNames, Catalog.ofVariables_eq]
  split_ifs
  · rintro line pattern ⟨⟩
  · refine (ends_checkNames 0 ?_ ?_ [] _).map fun _ _ => trivial
    · rintro name line pattern ⟨⟩
    · rintro name line pattern ⟨⟩

omit [Scalar α] in
theorem IsSumFault.noInvalidPattern {e : SpecError α} (h : IsSumFault e) : NoInvalidPattern e := by
  cases h <;> rintro line pattern ⟨⟩

/-- No pattern is refused after the lines have been read. -/
theorem ends_complete {text : String} (ht : read text = .ok t) (settings : Settings α)
    (given : Option (List String)) :
    Ends NoInvalidPattern (fun _ => True) (t.complete settings given) := by
  rw [complete]
  cases hwidth : (t.width : Except (SpecError α) Nat) with
  | error e =>
    rw [width] at hwidth
    split at hwidth
    · cases hwidth
      rintro line pattern ⟨⟩
    · cases hwidth
  | ok width =>
    have hnames := ends_ofNames (α := α) (t.chooseNames given width) settings.maxAssignments
    simp only [bind, Except.bind]
    cases hc : (Catalog.ofNames (t.chooseNames given width) settings.maxAssignments :
        Except (SpecError α) Catalog) with
    | error e =>
      rw [hc] at hnames
      exact hnames
    | ok c =>
      obtain ⟨cells, hslots⟩ := exists_slotted ht hwidth hc
      simp only [hslots.numbered_eq]
      exact ((ends_fill settings c cells).mono_error fun _ he => he.noInvalidPattern).mono
        fun _ _ => trivial

/-- **Patterns are slots.**  If variables with two states have a catalog within
    the cap, their patterns are the numbers of its assignments; the entries of a
    table with these variables have slots of their own, so that as many are
    missing as slots are free; and no table that has been read has a pattern
    that is refused later. -/
theorem slots_of_accepted {names : List String} {cap : Nat} {c : Catalog} (hne : names ≠ [])
    (hc : (Catalog.ofNames names cap : Except (SpecError α) Catalog) = .ok c) :
    c.NumbersPatterns names.length ∧
    (∀ {text : String} {t : TableDraft α} {given : Option (List String)}, read text = .ok t →
      t.width = (.ok names.length : Except (SpecError α) Nat) →
      t.chooseNames given names.length = names → ∃ cells, t.Slotted c.size cells) ∧
    ∀ {text : String} {t : TableDraft α}, read text = .ok t → ∀ settings given line pattern,
      t.complete settings given ≠ .error (.invalidPattern line pattern) := by
  refine ⟨Catalog.numbersPatterns hne hc, fun ht hwidth hnames => ?_,
    fun ht settings given line pattern h => ?_⟩
  · rw [← hnames] at hc
    exact exists_slotted ht hwidth hc
  · have hends := ends_complete ht settings given
    rw [h] at hends
    exact hends line pattern rfl

/-- The table of the header of this file, with a cap that it just keeps. -/
theorem slots_of_accepted_two :
    let text := "01: 0.6\n10: 0.4"
    let c := Catalog.of [.boolean "A", .boolean "B"]
    ["A", "B"] ≠ [] ∧ (Catalog.ofNames ["A", "B"] 4 : Except (SpecError ℚ) Catalog) = .ok c ∧
      c.NumbersPatterns 2 ∧ ∃ t : TableDraft ℚ, read text = .ok t ∧
        t.width = (.ok 2 : Except (SpecError ℚ) Nat) ∧ t.chooseNames none 2 = ["A", "B"] ∧
        t.Slotted 4 [(1, 0.6), (2, 0.4)] ∧ 4 - t.entries.length = 2 ∧
        ∀ line pattern, t.complete .default none ≠ .error (.invalidPattern line pattern) := by
  intro text c
  have hread : (read text : Except (SpecError ℚ) _).toOption.map (fun t =>
      ((t.width : Except (SpecError ℚ) Nat).toOption, t.chooseNames none 2,
        (t.numbered : Except (SpecError ℚ) _).toOption)) =
      some (some 2, ["A", "B"], some [(1, 0.6), (2, 0.4)]) := by
    simp only [read, Line.numbered, text]
    decide +kernel
  obtain ⟨t, ht, hfacts⟩ := Option.map_eq_some_iff.1 hread
  simp only [Prod.mk.injEq, toOption_eq_some] at ht hfacts
  obtain ⟨hwidth, hnames, hnumbered⟩ := hfacts
  have hc : (Catalog.ofNames ["A", "B"] 4 : Except (SpecError ℚ) Catalog) = .ok c := rfl
  obtain ⟨hpatterns, htables, hfaults⟩ := slots_of_accepted (by decide) hc
  obtain ⟨cells, hslots⟩ := htables ht hwidth hnames
  obtain rfl : cells = [(1, 0.6), (2, 0.4)] :=
    Except.ok.inj (hslots.numbered_eq.symm.trans hnumbered)
  exact ⟨by decide, hc, hpatterns, t, ht, hwidth, hnames, hslots,
    by rw [← hslots.length_eq]; rfl, hfaults ht _ _⟩

end TableDraft

end JointProb
