/-
  JointProb — the lines of a block with its parents and its entries in other
  orders.

      Late <- (Rain, Sky)           Late <- (Sky, Rain)
      (1 | 0, Clear): 0.2           (0 | Clear, 0): 0.8
      (0 | 0, Clear): 0.8           (1 | Clear, 0): 0.2

  * `EntryMoved` says of two lines that one is the other one, its labels in
    the order of other parents, and `BlockLines.Rearranged` of the lines of two
    blocks that only orders differ;
  * `EntryMoved.exists_isEntry`: such a line is an entry again, and neither a
    header nor a declaration;
  * `BlockLines.Rearranged.isBlock`: so the lines are a block again;
  * `BlockLines.Rearranged.rearranged`: the same block in other orders.
-/
import JointProb.Proofs.Spec.BlockLines
import JointProb.Proofs.Spec.BlockOrder
import JointProb.Proofs.Spec.Parts
import JointProb.Proofs.Spec.Sides

namespace JointProb

open Text

variable {vs : List Variable}

/-! ## Entries -/

/-- The same line, or one with the same value whose key has the labels in the
    order of the other names. -/
def EntryMoved (names names' : List (List Char)) (content content' : List Char) : Prop :=
  (names' = names ∧ content' = content) ∨
    ∃ s ∈ NetworkDraft.sides? content, ∃ s' ∈ NetworkDraft.sides? content',
      s.arrow = false ∧ s'.arrow = false ∧ s'.right = s.right ∧
      KeyMoved names names' (trim s.left) (trim s'.left)

instance (names names' : List (List Char)) (content content' : List Char) :
    Decidable (EntryMoved names names' content content') :=
  inferInstanceAs (Decidable (_ ∨ _))

namespace NetworkDraft

variable {content : List Char} {s : Sides} {k : KeyParts}

/-- An entry is cut at its colon. -/
theorem cut?_of_sides (h : sides? content = some s) (harrow : s.arrow = false) :
    cut? [':'] content = some (s.left, s.right) := by
  rw [sides?] at h
  split at h
  · cases h
    cases harrow
  · obtain ⟨_, hcut, rfl⟩ := Option.map_eq_some_iff.1 h
    exact hcut

/-- Neither a bit nor a parenthesis starts a name. -/
theorem indexOf?_of_keyParts? (hid : ∀ v ∈ vs, isIdentifier v.name) {key : List Char}
    (h : keyParts? key = some k) : indexOf? ⟨vs, []⟩ key = none := by
  refine List.findIdx?_eq_none_iff.2 fun v hv => beq_eq_false_iff_ne.2 fun hname => ?_
  have hkey := hid v hv
  rw [hname, isIdentifier, String.toList_ofList] at hkey
  cases key with
  | nil => cases hkey
  | cons c cs => rcases head_of_keyParts? h with rfl | rfl | rfl <;> simp at hkey

/-- Nor does one of them start the header of variables. -/
theorem isDeclaration_of_keyParts? (h : sides? content = some s) (harrow : s.arrow = false)
    (hkey : keyParts? (trim s.left) = some k) : isDeclaration content = false := by
  rw [isDeclaration_eq h, Bool.eq_false_iff, Ne, Line.isSome_variablesHeader?_iff]
  rintro ⟨word, hword, hstart⟩
  have hfront : word <+: s.left := by
    have hcolon := header_prefix_of_sides h hword hstart
    rw [Sides.mark, harrow, if_neg Bool.false_ne_true] at hcolon
    rcases List.prefix_concat_iff.1 hcolon with heq | hfront
    · exact (List.append_cancel_right heq).symm ▸ List.prefix_rfl
    · exact (List.prefix_append word [':']).trans hfront
  obtain ⟨c, cs, rfl, hc, -⟩ := List.map_eq_cons_iff.1 hword
  obtain ⟨rest, hleft⟩ := hfront
  have hletter : c.isAlphanum := isAlphanum_of_toLower (by rw [hc]; rfl)
  have hblank : isBlank c = false := by
    rw [isAlphanum_iff] at hletter
    exact isBlank_eq_false (by omega) (by omega)
  obtain ⟨tail, htrim⟩ := exists_trim_cons hblank (cs ++ rest)
  rw [← hleft, List.cons_append, htrim] at hkey
  rcases head_of_keyParts? hkey with rfl | rfl | rfl <;> exact absurd hc (by decide)

end NetworkDraft

open NetworkDraft

/-- **A moved entry is an entry.** -/
theorem EntryMoved.exists_isEntry {names names' : List (List Char)} {content content' : List Char}
    (hid : ∀ v ∈ vs, isIdentifier v.name) (h : EntryMoved names names' content content')
    {e : BlockEntry} (he : IsEntry vs content e) : ∃ e', IsEntry vs content' e' := by
  rcases h with ⟨-, rfl⟩ | ⟨s, -, s', hs', -, harrow', -, -, k, -, k', hk', -, -⟩
  · exact ⟨e, he⟩
  · refine ⟨⟨0, trim s'.left, trim s'.right⟩, isDeclaration_of_keyParts? hs' harrow' hk',
      readHeader_eq_none_iff.2 fun t ht => ?_, by rw [cut?_of_sides hs' harrow']; rfl⟩
    obtain rfl := Option.some.inj (hs'.symm.trans ht)
    exact ⟨harrow', .inl (indexOf?_of_keyParts? hid hk')⟩

/-- What is read of a moved entry is the entry, moved to these positions. -/
theorem EntryMoved.moved {names names' : List (List Char)} {content content' : List Char}
    (h : EntryMoved names names' content content') (position : List Char → ℕ) {e e' : BlockEntry}
    (he : IsEntry vs content e) (he' : IsEntry vs content' e') :
    e.Moved (names.map position) (names'.map position) e' := by
  rcases h with ⟨rfl, rfl⟩ | ⟨s, hs, s', hs', harrow, harrow', hright, hkey⟩
  · obtain ⟨hkey, hvalue⟩ := Prod.mk.inj (Option.some.inj (he'.cut_eq.symm.trans he.cut_eq))
    exact ⟨hvalue, .inl ⟨rfl, hkey⟩⟩
  · have hcut := he.cut_eq
    have hcut' := he'.cut_eq
    rw [cut?_of_sides hs harrow] at hcut
    rw [cut?_of_sides hs' harrow'] at hcut'
    obtain ⟨hleft, hvalue⟩ := Prod.mk.inj (Option.some.inj hcut)
    obtain ⟨hleft', hvalue'⟩ := Prod.mk.inj (Option.some.inj hcut')
    refine ⟨?_, .inr ?_⟩
    · rw [← hvalue, ← hvalue', hright]
    · rw [← hleft, ← hleft']
      exact hkey.map position

/-! ## Blocks -/

namespace BlockLines

/-- The same variable and parents, these in another order, and the same entries,
    also in another order and with the labels in that of the parents. -/
def Rearranged (x x' : BlockLines) : Prop :=
  ∃ s ∈ sides? x.header, ∃ s' ∈ sides? x'.header, s'.arrow = s.arrow ∧ s'.left = s.left ∧
    (parentNames s'.right).Perm (parentNames s.right) ∧
    ∃ entries, List.Forall₂ (EntryMoved (parentNames s.right) (parentNames s'.right))
      x.entries entries ∧ entries.Perm x'.entries

variable {x x' : BlockLines}

theorem isBlock_iff : x.IsBlock vs ↔ (∃ child parents, Opens vs x.header child parents) ∧
    ∀ content ∈ x.entries, ∃ e, IsEntry vs content e := by
  constructor
  · rintro ⟨b, hheader, hentries⟩
    refine ⟨⟨_, _, hheader⟩, fun content hmem => ?_⟩
    obtain ⟨e, -, he⟩ := exists_right_of_forall₂ hentries hmem
    exact ⟨e, he⟩
  · rintro ⟨⟨child, parents, hheader⟩, hentries⟩
    obtain ⟨entries, hentries⟩ := exists_forall₂ hentries
    exact ⟨⟨child, parents, 0, entries⟩, hheader, hentries⟩

namespace Rearranged

theorem refl (hx : x.IsBlock vs) : x.Rearranged x := by
  obtain ⟨b, hheader, -⟩ := hx
  obtain ⟨s, hs, -⟩ := readHeader_eq_some_iff.1 hheader.readHeader_eq
  exact ⟨s, hs, s, hs, rfl, rfl, .refl _, x.entries,
    List.forall₂_same.2 fun _ _ => .inl ⟨rfl, rfl⟩, .refl _⟩

/-- **The lines of a block are a block in other orders.** -/
theorem isBlock (h : x.Rearranged x') (hid : ∀ v ∈ vs, isIdentifier v.name) (hx : x.IsBlock vs) :
    x'.IsBlock vs := by
  obtain ⟨s, hs, s', hs', harrow, hleft, hparents, entries, hmoved, hperm⟩ := h
  obtain ⟨⟨child, parents, hopens⟩, hentries⟩ := isBlock_iff.1 hx
  refine isBlock_iff.2 ⟨?_, fun content' hmem => ?_⟩
  · obtain ⟨t, ht, hchild, hread, hnodup⟩ := readHeader_eq_some_iff.1 hopens.readHeader_eq
    obtain rfl := Option.some.inj (ht.symm.trans hs)
    obtain ⟨parents', hread', hperm'⟩ := List.perm_comp_forall₂ hparents hread
    have hs'' : sides? x'.header = some { t with right := s'.right } := by
      rw [← harrow, ← hleft]
      exact hs'
    exact ⟨child, parents', isDeclaration_eq_false_of_sides hs hs'' hopens.isDeclaration_eq,
      readHeader_eq_some_iff.2 ⟨_, hs', hleft ▸ hchild, hread', hperm'.nodup_iff.2 hnodup⟩⟩
  · obtain ⟨content, hcontent, hentry⟩ := exists_left_of_forall₂ hmoved (hperm.mem_iff.2 hmem)
    obtain ⟨e, he⟩ := hentries content hcontent
    exact hentry.exists_isEntry hid he

/-- **They are the same block in other orders.** -/
theorem rearranged (h : x.Rearranged x') {b b' : Block} (hx : x.Reads vs b)
    (hx' : x'.Reads vs b') : b.Rearranged b' := by
  obtain ⟨s, hs, s', hs', -, hleft, hparents, entries, hmoved, hperm⟩ := h
  obtain ⟨t, ht, hchild, hread⟩ := readHeader_eq_some_iff.1 hx.header.readHeader_eq
  obtain ⟨t', ht', hchild', hread'⟩ := readHeader_eq_some_iff.1 hx'.header.readHeader_eq
  obtain rfl := Option.some.inj (ht.symm.trans hs)
  obtain rfl := Option.some.inj (ht'.symm.trans hs')
  obtain ⟨es, hes, hperm'⟩ := List.perm_comp_forall₂ hperm hx'.entries
  have hmoves : List.Forall₂ (fun e content' => ∀ e', IsEntry vs content' e' →
      e.Moved b.parents b'.parents e') b.entries entries := by
    rw [hread.eq_map, hread'.eq_map]
    exact forall₂_join hx.entries hmoved fun _ _ _ he hmoved _ he' => hmoved.moved _ he he'
  have hsame : List.Forall₂ (BlockEntry.Moved b.parents b'.parents) b.entries es :=
    forall₂_join hmoves.flip hes fun _ _ _ he => he _
  refine ⟨?_, ?_, hread.2, es, hsame, hperm'⟩
  · rw [hleft] at hchild'
    exact Option.some.inj (hchild'.symm.trans hchild)
  · rw [hread.eq_map, hread'.eq_map]
    exact hparents.map _

end Rearranged

end BlockLines

end JointProb
