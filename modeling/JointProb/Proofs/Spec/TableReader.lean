/-
  JointProb — the lines of a table, as they are read.

  * `TableLine.Says` is what the content of a line says, `TableText` what a
    text says whose lines are a header, perhaps, and entries for different
    patterns of one width;
  * `TableLine.Says.item`: its lines are items of a table, any two of which fit;
    `TableDraft.exists_read`: so it is read;
  * `TableText.width_eq_ok` and `TableDraft.chooseNames_valid`: what is made of
    it next.
-/
import JointProb.Proofs.Catalog.DefaultNames
import JointProb.Proofs.Spec.Line
import JointProb.Proofs.Spec.Pattern
import JointProb.Proofs.Spec.Table
import JointProb.Proofs.Spec.TableItems

namespace JointProb

open Decimal (Literal)

/-! ## Lines -/

/-- What a line of a table says. -/
inductive TableLine where
  | header (names : List String)
  | entry (bits : Bits) (value : ℚ)

namespace TableLine

/-- How it says this, without a comment and the blanks around it: a header
    lists distinct identifiers, an entry has a probability. -/
inductive Says : List Char → TableLine → Prop
  | header {content rest : List Char} {names : List String}
      (h : Line.variablesHeader? content = some rest)
      (hnames : names = ((Text.fields rest).filter fun n => !n.isEmpty).map String.ofList)
      (hid : ∀ n ∈ names, isIdentifier n) (hnodup : names.Nodup) : Says content (.header names)
  | entry {bits : Bits} {blanks value : List Char} {p : ℚ} (hne : bits ≠ [])
      (hblanks : Text.IsBlanks blanks)
      (hread : (Literal.read? (Text.trim value)).bind Scalar.ofLiteral? = some p)
      (hp : IsProbability p) : Says (bits.text ++ (blanks ++ ':' :: value)) (.entry bits p)

def header? : TableLine → Option (List String)
  | header names => some names
  | entry .. => none

def entry? : TableLine → Option (Bits × ℚ)
  | header _ => none
  | entry bits value => some (bits, value)

/-- The headers among lines. -/
def headers (lines : List TableLine) : List (List String) := lines.filterMap header?

/-- The entries among lines. -/
def entries (lines : List TableLine) : List (Bits × ℚ) := lines.filterMap entry?

end TableLine

/-- A text that lists probabilities of different patterns of a width, at least
    one, perhaps with a header. -/
structure TableText (text : String) (header : Option (List String)) (entries : List (Bits × ℚ))
    (width : Nat) : Prop where
  exists_lines : ∃ lines, List.Forall₂ TableLine.Says ((Line.numbered text).map Prod.snd) lines ∧
    TableLine.headers lines = header.toList ∧
    TableLine.entries lines = entries
  entries_ne_nil : entries ≠ []
  length_eq : ∀ e ∈ entries, e.1.length = width
  nodup_patterns : (entries.map Prod.fst).Nodup

/-! ## Reading -/

/-- Entries are no headers. -/
theorem Line.variablesHeader?_of_bits {bits : Bits} (hne : bits ≠ []) (cs : List Char) :
    Line.variablesHeader? (bits.text ++ cs) = none := by
  cases bits with
  | nil => exact absurd rfl hne
  | cons x bits => cases x <;> simp [variablesHeader?, Bits.text, Bits.digit, Text.equalUpToCase]

theorem Text.not_isBlank_of_bits {bits : Bits} : ∀ c ∈ bits.text, isBlank c = false := by
  intro c hc
  rcases Bits.mem_text hc with rfl | rfl <;> rfl

namespace TableLine

/-- The line as an item. -/
def item : TableLine → TableItem ℚ
  | header names => .header names
  | entry bits value => .entry bits value

theorem Says.item {content : List Char} {x : TableLine} (h : Says content x) :
    TableItem.Says content x.item := by
  cases h with
  | header h hnames hid hnodup => exact .header h hnames.symm ⟨hid, hnodup⟩
  | @entry bits blanks value p hne hblanks hread hp =>
    have hfront : ':' ∉ bits.text ++ blanks := by
      rw [List.mem_append, not_or]
      refine ⟨fun h => ?_, fun h => absurd (hblanks _ h) (by decide)⟩
      rcases Bits.mem_text h with h | h <;> cases h
    have hcut : Text.cut? [':'] (bits.text ++ (blanks ++ ':' :: value)) =
        some (bits.text ++ blanks, value) := by
      rw [← List.append_assoc]
      exact Text.cut?_append hfront value
    have htrim : Text.trim (bits.text ++ blanks) = bits.text := by
      rw [Text.trim_append_blanks hblanks, Text.trim_eq_self_of_forall Text.not_isBlank_of_bits]
    exact .entry (Line.variablesHeader?_of_bits hne _) hcut htrim hne fun line =>
      Line.probability_eq_ok hread ⟨rfl, hp⟩

theorem filterMap_header?_item (lines : List TableLine) :
    (lines.map item).filterMap TableItem.header? = headers lines := by
  rw [List.filterMap_map, headers]
  exact List.filterMap_congr fun x _ => by cases x <;> rfl

theorem filterMap_entry?_item (lines : List TableLine) :
    (lines.map item).filterMap TableItem.entry? = entries lines := by
  rw [List.filterMap_map, entries]
  exact List.filterMap_congr fun x _ => by cases x <;> rfl

end TableLine

/-- **Such a text is read.** -/
theorem TableDraft.exists_read {text : String} {header : Option (List String)}
    {entries : List (Bits × ℚ)} {width : Nat} (h : TableText text header entries width) :
    ∃ t, read text = .ok t ∧ t.header = header ∧ List.Forall₂
      (fun e (x : Bits × ℚ) => e.pattern = x.1.text ∧ e.value = x.2) t.entries entries := by
  obtain ⟨lines, hlines, hheader, rfl⟩ := h.exists_lines
  have hheaders := TableLine.filterMap_header?_item lines
  have hentries := TableLine.filterMap_entry?_item lines
  have hfits : (lines.map TableLine.item).Pairwise TableItem.Fits := by
    apply TableItem.pairwise_fits
    · rw [hheaders, hheader]
      exact Option.length_toList_le
    · rw [hentries]
      exact h.length_eq
    · rw [hentries]
      exact h.nodup_patterns
  obtain ⟨t, hread, ht⟩ := exists_reads (α := ℚ)
    (List.forall₂_map_right_iff.2 (hlines.imp fun _ _ hsays => hsays.item)) hfits
  refine ⟨t, hread, ?_, hentries ▸ ht.entries_eq⟩
  have hlist := (ht.header_eq.trans hheaders).trans hheader
  simpa using congrArg List.head? hlist

/-! ## What is made of it -/

namespace TableText

variable {text : String} {header : Option (List String)} {entries : List (Bits × ℚ)} {width : Nat}

/-- Patterns are not empty. -/
theorem ne_nil (h : TableText text header entries width) : ∀ e ∈ entries, e.1 ≠ [] := by
  obtain ⟨lines, hlines, -, rfl⟩ := h.exists_lines
  intro e he
  obtain ⟨x, hx, hxe⟩ := List.mem_filterMap.1 he
  cases x with
  | header => cases hxe
  | entry bits p =>
    cases hxe
    obtain ⟨content, -, hsays⟩ := exists_left_of_forall₂ hlines hx
    cases hsays with
    | entry hne _ _ _ => exact hne

/-- The names of a header are distinct identifiers. -/
theorem valid_header (h : TableText text header entries width) :
    ∀ names ∈ header, (∀ n ∈ names, isIdentifier n) ∧ names.Nodup := by
  obtain ⟨lines, hlines, hheader, -⟩ := h.exists_lines
  rintro names hnames
  have hmem : names ∈ TableLine.headers lines := hheader ▸ Option.mem_toList.2 hnames
  obtain ⟨x, hx, hxn⟩ := List.mem_filterMap.1 hmem
  cases x with
  | entry => cases hxn
  | header names' =>
    cases hxn
    obtain ⟨content, -, hsays⟩ := exists_left_of_forall₂ hlines hx
    cases hsays with
    | header _ _ hid hnodup => exact ⟨hid, hnodup⟩

theorem width_eq_ok (h : TableText text header entries width) {t : TableDraft ℚ}
    (ht : List.Forall₂ (fun e (x : Bits × ℚ) => e.pattern = x.1.text ∧ e.value = x.2) t.entries
      entries) : t.width = .ok width := by
  rw [TableDraft.width]
  split
  · rename_i hnil
    rw [hnil, List.forall₂_nil_left_iff] at ht
    exact absurd ht h.entries_ne_nil
  · rename_i first rest hfirst
    obtain ⟨x, hx, hpattern, -⟩ := exists_right_of_forall₂ ht (x := first) (by simp [hfirst])
    rw [hpattern, Bits.length_text, h.length_eq x hx]

end TableText

namespace TableDraft

/-- The names of a table can be used, whether given, listed or default ones. -/
theorem chooseNames_valid {t : TableDraft ℚ} {given : Option (List String)} (width : Nat)
    (hgiven : ∀ names ∈ given, (∀ n ∈ names, isIdentifier n) ∧ names.Nodup)
    (hheader : ∀ names ∈ t.header, (∀ n ∈ names, isIdentifier n) ∧ names.Nodup) :
    (∀ n ∈ t.chooseNames given width, isIdentifier n) ∧ (t.chooseNames given width).Nodup := by
  have hdefault : (∀ n ∈ defaultNames width, isIdentifier n) ∧ (defaultNames width).Nodup :=
    ⟨fun n hn => isIdentifier_of_mem_defaultNames hn, nodup_defaultNames width⟩
  rw [chooseNames]
  split
  · rename_i names hnames
    split_ifs
    · cases given with
      | none => exact hheader names hnames
      | some ns => exact hgiven names hnames
    · exact hdefault
  · exact hdefault

end TableDraft

end JointProb
