/-
  JointProb — what the lines of a table say to each other.

  * `TableItem.Says` is what a line says, whatever numbers are computed with;
  * `TableItem.Fits` holds of two lines that can stand in one table, in either
    order;
  * `TableDraft.Reads` holds of what has been read and of the lines that said
    it: `TableDraft.Reads.exists_item` and `TableDraft.Reads.exists_readLine`
    are about one more line;
  * `TableDraft.reads_of_read` and `TableDraft.exists_reads`: so a text is read
    if its lines say something and any two of them fit, and only then.
-/
import JointProb.Proofs.Catalog.Names
import JointProb.Proofs.Result
import JointProb.Proofs.Spec.Line
import JointProb.Proofs.Spec.Pattern
import JointProb.Spec.Table
import Mathlib.Data.List.Pairwise
import Mathlib.Data.List.Perm.Basic

namespace JointProb

open Text

variable {α : Type}

/-! ## Lines -/

/-- What a line of a table says: names, or a pattern with its probability. -/
inductive TableItem (α : Type) where
  | header (names : List String)
  | entry (bits : Bits) (value : α)

namespace TableItem

/-- How it says this, without a comment and the blanks around it. -/
inductive Says [Scalar α] : List Char → TableItem α → Prop
  | header {content rest : List Char} {names : List String}
      (hheader : Line.variablesHeader? content = some rest)
      (hnames : ((fields rest).filter fun n => !n.isEmpty).map String.ofList = names)
      (hvalid : (∀ n ∈ names, isIdentifier n) ∧ names.Nodup) : Says content (.header names)
  | entry {content pattern value : List Char} {bits : Bits} {p : α}
      (hheader : Line.variablesHeader? content = none)
      (hcut : cut? [':'] content = some (pattern, value)) (hpattern : trim pattern = bits.text)
      (hne : bits ≠ []) (hvalue : ∀ line, Line.probability line value = .ok p) :
      Says content (.entry bits p)

def header? : TableItem α → Option (List String)
  | header names => some names
  | entry .. => none

def entry? : TableItem α → Option (Bits × α)
  | header _ => none
  | entry bits value => some (bits, value)

/-- One of them is no header, and entries are for different patterns of a
    width. -/
def Fits : TableItem α → TableItem α → Prop
  | header _, header _ => False
  | entry a _, entry b _ => a.length = b.length ∧ a ≠ b
  | _, _ => True

theorem Fits.symm {x y : TableItem α} (h : x.Fits y) : y.Fits x := by
  cases x <;> cases y
  · exact h
  · trivial
  · trivial
  · exact ⟨h.1.symm, h.2.symm⟩

/-- Patterns are not empty. -/
theorem ne_nil_of_says [Scalar α] {contents : List (List Char)} {xs : List (TableItem α)}
    (h : List.Forall₂ Says contents xs) : ∀ e ∈ xs.filterMap entry?, e.1 ≠ [] := by
  intro e he
  obtain ⟨x, hx, hxe⟩ := List.mem_filterMap.1 he
  obtain ⟨content, -, hsays⟩ := exists_left_of_forall₂ h hx
  cases hsays with
  | header => cases hxe
  | entry _ _ _ hne =>
    cases hxe
    exact hne

instance : Std.Symm (Fits (α := α)) := ⟨fun _ _ => Fits.symm⟩

/-- One header at most, and entries for different patterns of a width. -/
theorem pairwise_fits {xs : List (TableItem α)} {width : Nat}
    (hheaders : (xs.filterMap header?).length ≤ 1)
    (hwidth : ∀ e ∈ xs.filterMap entry?, e.1.length = width)
    (hnodup : ((xs.filterMap entry?).map Prod.fst).Nodup) : xs.Pairwise Fits := by
  induction xs with
  | nil => exact .nil
  | cons x xs ih =>
    cases x with
    | header names =>
      have hnone : xs.filterMap header? = [] := by simpa [header?] using hheaders
      refine .cons (fun y hy => ?_) (ih (by simp [hnone]) hwidth hnodup)
      cases y with
      | header names' => cases List.filterMap_eq_nil_iff.1 hnone _ hy
      | entry => trivial
    | entry bits p =>
      obtain ⟨hbits, hwidth⟩ := List.forall_mem_cons.1 hwidth
      obtain ⟨hnew, hnodup⟩ := List.nodup_cons.1 hnodup
      refine .cons (fun y hy => ?_) (ih hheaders hwidth hnodup)
      cases y with
      | header => trivial
      | entry bits' p' =>
        have hmem : (bits', p') ∈ xs.filterMap entry? := List.mem_filterMap.2 ⟨_, hy, rfl⟩
        exact ⟨hbits.trans (hwidth _ hmem).symm,
          fun heq => hnew (List.mem_map.2 ⟨_, hmem, heq.symm⟩)⟩

/-- Of lines that fit, the patterns have one width. -/
theorem length_eq_of_pairwise {xs : List (TableItem α)} (hxs : xs.Pairwise Fits)
    {x y : TableItem α} (hx : x ∈ xs) (hy : y ∈ xs) {a b : Bits × α} (ha : a ∈ x.entry?)
    (hb : b ∈ y.entry?) : a.1.length = b.1.length := by
  by_cases heq : x = y
  · subst heq
    rw [Option.mem_unique ha hb]
  · have hfits := hxs.forall hx hy heq
    cases x <;> cases y <;> cases ha <;> cases hb
    exact hfits.1

end TableItem

namespace TableDraft

variable {t t' : TableDraft α} {xs ys : List (TableItem α)} {x : TableItem α}
  {content : List Char} {line : Nat}

/-- What has been read is what lines said. -/
structure Reads (t : TableDraft α) (xs : List (TableItem α)) : Prop where
  header_eq : t.header.toList = xs.filterMap TableItem.header?
  entries_eq : List.Forall₂ (fun e (x : Bits × α) => e.pattern = x.1.text ∧ e.value = x.2)
    t.entries (xs.filterMap TableItem.entry?)

theorem reads_empty : (empty : TableDraft α).Reads [] := ⟨rfl, .nil⟩

/-! ## One more line -/

theorem Reads.concat_header (ht : t.Reads xs) (hnone : t.header = none) (names : List String) :
    Reads ⟨some names, t.entries⟩ (xs ++ [TableItem.header names]) := by
  have hheaders := ht.header_eq
  rw [hnone] at hheaders
  refine ⟨?_, ?_⟩
  · rw [List.filterMap_append, ← hheaders]
    rfl
  · rw [List.filterMap_append, List.filterMap_cons_none rfl, List.filterMap_nil, List.append_nil]
    exact ht.entries_eq

theorem Reads.concat_entry (ht : t.Reads xs) (line : Nat) (bits : Bits) (p : α) :
    Reads ⟨t.header, t.entries ++ [⟨line, bits.text, p⟩]⟩ (xs ++ [TableItem.entry bits p]) := by
  refine ⟨?_, ?_⟩
  · rw [List.filterMap_append, List.filterMap_cons_none rfl, List.filterMap_nil, List.append_nil]
    exact ht.header_eq
  · rw [List.filterMap_append]
    exact List.rel_append ht.entries_eq (.cons ⟨rfl, rfl⟩ .nil)

/-- A header fits if there is none yet. -/
theorem Reads.header_eq_none_iff (ht : t.Reads xs) (names : List String) :
    t.header = none ↔ ∀ x ∈ xs, x.Fits (.header names) := by
  rw [← Option.toList_eq_nil_iff, ht.header_eq, List.filterMap_eq_nil_iff]
  refine forall₂_congr fun x _ => ?_
  cases x <;> simp [TableItem.Fits, TableItem.header?]

/-- The patterns that have been read are those that lines said. -/
theorem Reads.forall_pattern_iff (ht : t.Reads xs) {P : List Char → Prop} :
    (∀ e ∈ t.entries, P e.pattern) ↔ ∀ x ∈ xs, ∀ y ∈ x.entry?, P y.1.text := by
  constructor
  · intro h x hx y hy
    obtain ⟨e, he, hpattern, -⟩ :=
      exists_left_of_forall₂ ht.entries_eq (List.mem_filterMap.2 ⟨x, hx, hy⟩)
    exact hpattern ▸ h e he
  · intro h e he
    obtain ⟨y, hy, hpattern, -⟩ := exists_right_of_forall₂ ht.entries_eq he
    obtain ⟨x, hx, hxy⟩ := List.mem_filterMap.1 hy
    exact hpattern ▸ h x hx y hxy

/-- An entry fits if the others have patterns of its width, and not its own. -/
theorem Reads.forall_fits_entry_iff (ht : t.Reads xs) {bits : Bits} (p : α) :
    (∀ x ∈ xs, x.Fits (.entry bits p)) ↔ ∀ e ∈ t.entries,
      e.pattern.length = bits.text.length ∧ e.pattern ≠ bits.text := by
  rw [ht.forall_pattern_iff (P := fun pattern =>
    pattern.length = bits.text.length ∧ pattern ≠ bits.text)]
  refine forall₂_congr fun x _ => ?_
  cases x with
  | header => simp [TableItem.Fits, TableItem.entry?]
  | entry a q =>
    simp [TableItem.Fits, TableItem.entry?, Bits.length_text, Bits.text_injective.ne_iff]

/-- All patterns have one width. -/
theorem Reads.length_eq (ht : t.Reads xs) (hxs : xs.Pairwise TableItem.Fits) :
    ∀ e ∈ t.entries, ∀ e' ∈ t.entries, e.pattern.length = e'.pattern.length := by
  rw [ht.forall_pattern_iff (P := fun pattern =>
    ∀ e' ∈ t.entries, pattern.length = e'.pattern.length)]
  intro x hx a ha
  rw [ht.forall_pattern_iff (P := fun pattern => a.1.text.length = pattern.length)]
  intro y hy b hb
  rw [Bits.length_text, Bits.length_text, TableItem.length_eq_of_pairwise hxs hx hy ha hb]

theorem checkLength_eq_ok_iff (h : ∀ e ∈ t.entries, ∀ e' ∈ t.entries,
    e.pattern.length = e'.pattern.length) {pattern : List Char} :
    t.checkLength line pattern = (.ok () : Except (SpecError α) Unit) ↔
      ∀ e ∈ t.entries, e.pattern.length = pattern.length := by
  rw [checkLength]
  split
  · next hentries => simp [hentries]
  · next first rest hentries =>
    have hmem : first ∈ t.entries := by simp [hentries]
    split_ifs with hlength
    · exact iff_of_true rfl fun e he => (h e he first hmem).trans hlength.symm
    · exact iff_of_false (by simp) fun hall => hlength (hall first hmem).symm

/-- The entries by number, if these are not too large. -/
theorem numbered_eq_ok {entries : List (Bits × α)}
    (ht : List.Forall₂ (fun e (x : Bits × α) => e.pattern = x.1.text ∧ e.value = x.2) t.entries
      entries) (hne : ∀ e ∈ entries, e.1 ≠ [])
    (hword : ∀ e ∈ entries, 2 ^ e.1.length ≤ Text.wordLimit) :
    t.numbered = (.ok (entries.map fun e => (e.1.number, e.2)) : Except (SpecError α) _) := by
  rw [numbered, mapM_eq_ok, List.forall₂_map_right_iff]
  refine forall₂_imp_mem ht fun e _ x hx h => ?_
  rw [h.1, Bits.readNumeral?_text (hne x hx) (hword x hx), h.2]

variable [Scalar α]

theorem Reads.exists_entry (ht : t.Reads xs) (hxs : xs.Pairwise TableItem.Fits)
    {pattern value : List Char} (h : t.readEntry line pattern value = .ok t') :
    ∃ (bits : Bits) (p : α), pattern = bits.text ∧ bits ≠ [] ∧ Line.probability line value = .ok p ∧
      (∀ y ∈ xs, y.Fits (.entry bits p)) ∧ t'.Reads (xs ++ [.entry bits p]) := by
  simp only [readEntry] at h
  split at h
  · cases h
  next hpattern =>
  simp only [not_or, not_not, List.isEmpty_iff, Line.isPattern, List.all_eq_true, Bool.or_eq_true,
    beq_iff_eq] at hpattern
  obtain ⟨bits, rfl⟩ := Bits.exists_text_eq hpattern.2
  split at h
  · cases h
  next hlength =>
  split at h
  · cases h
  next p hp =>
  split_ifs at h with hnew
  cases h
  have hwidth := (checkLength_eq_ok_iff (ht.length_eq hxs)).1 hlength
  have hfits : ∀ e ∈ t.entries, e.pattern.length = bits.text.length ∧ e.pattern ≠ bits.text :=
    fun e he => ⟨hwidth e he, by simpa using List.any_eq_false.1 (Bool.eq_false_iff.2 hnew) e he⟩
  exact ⟨bits, p, rfl, mt Bits.text_eq_nil.2 hpattern.1, hp, (ht.forall_fits_entry_iff p).2 hfits,
    ht.concat_entry line bits p⟩

/-- **What is read of a line** fits what has been read. -/
theorem Reads.exists_item (ht : t.Reads xs) (hxs : xs.Pairwise TableItem.Fits)
    (h : t.readLine line content = .ok t') :
    ∃ x, TableItem.Says content x ∧ (∀ y ∈ xs, y.Fits x) ∧ t'.Reads (xs ++ [x]) := by
  rw [readLine] at h
  split at h
  · next rest hheader =>
    split at h
    · cases h
    · next hnone =>
      obtain ⟨names, hnames, rfl⟩ := map_eq_ok.1 h
      obtain ⟨_, hcheck, rfl⟩ := map_eq_ok.1 hnames
      obtain ⟨hid, hnodup, -⟩ := checkNames_eq_ok_iff.1 hcheck
      exact ⟨_, .header hheader rfl ⟨hid, hnodup⟩, (ht.header_eq_none_iff _).1 hnone,
        ht.concat_header hnone _⟩
  · next hheader =>
    split at h
    · cases h
    · next pattern value hcut =>
      obtain ⟨bits, p, hpattern, hne, hp, hfits, ht'⟩ := ht.exists_entry hxs h
      exact ⟨_, .entry hheader hcut hpattern hne (Line.probability_of_line hp), hfits, ht'⟩

/-- **A line that fits is read.** -/
theorem Reads.exists_readLine (ht : t.Reads xs) (hxs : xs.Pairwise TableItem.Fits)
    (hx : TableItem.Says content x) (hfits : ∀ y ∈ xs, y.Fits x) (line : Nat) :
    ∃ t', t.readLine line content = .ok t' ∧ t'.Reads (xs ++ [x]) := by
  cases hx with
  | @header rest names hheader hnames hvalid =>
    have hnone := (ht.header_eq_none_iff names).2 hfits
    have hcheck : (checkNames line [] names : Except (SpecError α) Unit) = .ok () :=
      checkNames_eq_ok_iff.2 ⟨hvalid.1, hvalid.2, by simp⟩
    refine ⟨_, ?_, ht.concat_header hnone names⟩
    simp only [readLine, hheader, hnone, Line.names, hnames, hcheck]
    rfl
  | @entry pattern value bits p hheader hcut hpattern hne hvalue =>
    have hall := (ht.forall_fits_entry_iff p).1 hfits
    have hlength : t.checkLength line bits.text = .ok () :=
      (checkLength_eq_ok_iff (ht.length_eq hxs)).2 fun e he => (hall e he).1
    have hnew : t.entries.any (·.pattern == bits.text) = false := by
      simpa using fun e he => (hall e he).2
    have hbits : ¬ (bits.text.isEmpty ∨ ¬ Line.isPattern bits.text) := by
      simp [Bits.text_eq_nil, hne, Bits.isPattern_text]
    refine ⟨_, ?_, ht.concat_entry line bits p⟩
    simp only [readLine, hheader, hcut, hpattern, readEntry, if_neg hbits, hlength, hvalue, hnew]
    rfl

/-! ## All lines -/

/-- Read further lines. -/
def readLines (t : TableDraft α) (ls : List (Nat × List Char)) :
    Except (SpecError α) (TableDraft α) :=
  ls.foldlM (fun t l => t.readLine l.1 l.2) t

/-- **What is read of lines** are lines of which any two fit. -/
theorem reads_of_read {text : String} (h : read text = .ok t) :
    ∃ xs, List.Forall₂ TableItem.Says ((Line.numbered text).map Prod.snd) xs ∧
      xs.Pairwise TableItem.Fits ∧ t.Reads xs := by
  suffices hrun : ∀ (ls : List (Nat × List Char)) (xs : List (TableItem α)) (s : TableDraft α),
      s.Reads xs → xs.Pairwise TableItem.Fits → s.readLines ls = .ok t →
      ∃ ys, List.Forall₂ TableItem.Says (ls.map Prod.snd) ys ∧
        (xs ++ ys).Pairwise TableItem.Fits ∧ t.Reads (xs ++ ys) from
    hrun _ [] empty reads_empty .nil h
  intro ls
  induction ls with
  | nil =>
    intro xs s hs hxs hrun
    cases hrun
    exact ⟨[], .nil, by rwa [List.append_nil], by rwa [List.append_nil]⟩
  | cons l ls ih =>
    intro xs s hs hxs hrun
    rw [readLines, List.foldlM_cons, bind_eq_ok] at hrun
    obtain ⟨s', hstep, hrun⟩ := hrun
    obtain ⟨x, hx, hfits, hs'⟩ := hs.exists_item hxs hstep
    have hxs' : (xs ++ [x]).Pairwise TableItem.Fits := by
      rw [List.pairwise_append]
      exact ⟨hxs, List.pairwise_singleton _ _, by simpa using hfits⟩
    obtain ⟨ys, hys, hpair, ht⟩ := ih _ s' hs' hxs' hrun
    rw [List.append_assoc] at hpair ht
    exact ⟨x :: ys, .cons hx hys, hpair, ht⟩

/-- **Lines of which any two fit are read.** -/
theorem exists_reads {text : String}
    (h : List.Forall₂ TableItem.Says ((Line.numbered text).map Prod.snd) xs)
    (hxs : xs.Pairwise TableItem.Fits) :
    ∃ t : TableDraft α, read text = .ok t ∧ t.Reads xs := by
  suffices hrun : ∀ (ls : List (Nat × List Char)) (ys zs : List (TableItem α)) (s : TableDraft α),
      s.Reads ys → (ys ++ zs).Pairwise TableItem.Fits →
      List.Forall₂ TableItem.Says (ls.map Prod.snd) zs →
      ∃ t, s.readLines ls = .ok t ∧ t.Reads (ys ++ zs) from
    hrun _ [] xs empty reads_empty hxs h
  intro ls
  induction ls with
  | nil =>
    intro ys zs s hs hpair hzs
    cases hzs
    exact ⟨s, rfl, by rwa [List.append_nil]⟩
  | cons l ls ih =>
    intro ys zs s hs hpair hzs
    rw [List.map_cons, List.forall₂_cons_left_iff] at hzs
    obtain ⟨z, zs, hz, hzs, rfl⟩ := hzs
    obtain ⟨hys, -, hfits⟩ := List.pairwise_append.1 hpair
    obtain ⟨s', hstep, hs'⟩ :=
      hs.exists_readLine hys hz (fun y hy => hfits y hy z List.mem_cons_self) l.1
    rw [List.append_cons] at hpair ⊢
    obtain ⟨t, hrun, ht⟩ := ih _ zs s' hs' hpair hzs
    exact ⟨t, by simp only [readLines, List.foldlM_cons, hstep, bind, Except.bind]; exact hrun, ht⟩

end TableDraft

end JointProb
