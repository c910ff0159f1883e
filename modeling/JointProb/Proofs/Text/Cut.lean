/-
  JointProb — trimming and cutting texts.

  * `trim_append_blanks` and `trim_blanks_append`: blanks around a text are
    dropped, `trim_eq_self` and `exists_blanks`: nothing else is;
  * `dropStart?_append`, `dropEnd?_append` and `dropParens`: known ends;
  * `cut?_append`: a text is cut at the first mark;
  * `contains_append_cons`: a mark stands on one side of a character that it
    does not have;
  * `notMem_of_mem_splitOn`: no piece between marks has the mark.
-/
import JointProb.Proofs.Text.Char
import JointProb.Proofs.Text.Run
import JointProb.Text.Cut
import Mathlib.Data.List.Infix

namespace JointProb.Text

/-- Blanks only. -/
def IsBlanks (cs : List Char) : Prop := ∀ c ∈ cs, isBlank c

/-! ## Trimming -/

theorem trimLeft_blanks {cs : List Char} (h : IsBlanks cs) : trimLeft cs = [] :=
  List.dropWhile_eq_nil_iff.2 h

theorem trimLeft_blanks_append {blanks : List Char} (h : IsBlanks blanks) (cs : List Char) :
    trimLeft (blanks ++ cs) = trimLeft cs :=
  List.dropWhile_append_of_pos h

theorem trimRight_append_blanks {blanks : List Char} (h : IsBlanks blanks) (cs : List Char) :
    trimRight (cs ++ blanks) = trimRight cs := by
  have hreverse : IsBlanks blanks.reverse := fun c hc => h c (List.mem_reverse.1 hc)
  rw [trimRight, List.reverse_append, trimLeft_blanks_append hreverse, trimRight]

/-- Blanks in front of a text are dropped. -/
theorem trim_blanks_append {blanks : List Char} (h : IsBlanks blanks) (cs : List Char) :
    trim (blanks ++ cs) = trim cs := by
  rw [trim, trimLeft_blanks_append h, trim]

/-- Blanks after a text are dropped. -/
theorem trim_append_blanks {blanks : List Char} (h : IsBlanks blanks) (cs : List Char) :
    trim (cs ++ blanks) = trim cs := by
  induction cs with
  | nil => rw [List.nil_append, trim, trimLeft_blanks h]; rfl
  | cons c cs ih =>
    by_cases hc : isBlank c
    · rw [List.cons_append, trim, trimLeft, List.dropWhile_cons_of_pos hc]
      rw [trim, trimLeft, List.dropWhile_cons_of_pos hc]
      exact ih
    · rw [trim, trimLeft, List.cons_append, List.dropWhile_cons_of_neg hc, ← List.cons_append,
        trimRight_append_blanks h, trim, trimLeft, List.dropWhile_cons_of_neg hc]

theorem trim_blanks {blanks : List Char} (h : IsBlanks blanks) : trim blanks = [] :=
  trim_append_blanks h []

/-- A text without blanks at its ends stays as it is. -/
theorem trim_eq_self {cs : List Char} (hhead : ∀ c ∈ cs.head?, isBlank c = false)
    (hlast : ∀ c ∈ cs.getLast?, isBlank c = false) : trim cs = cs := by
  have hleft : trimLeft cs = cs := dropWhile_eq_self hhead
  have hright : trimLeft cs.reverse = cs.reverse :=
    dropWhile_eq_self (by rwa [List.head?_reverse])
  rw [trim, hleft, trimRight, hright, List.reverse_reverse]

/-- A text without blanks stays as it is. -/
theorem trim_eq_self_of_forall {cs : List Char} (h : ∀ c ∈ cs, isBlank c = false) :
    trim cs = cs :=
  trim_eq_self (fun c hc => h c (List.mem_of_mem_head? hc))
    fun c hc => h c (List.mem_of_mem_getLast? hc)

/-- So does one that starts and ends with something without blanks. -/
theorem trim_eq_self_of_ends {cs front back : List Char} (hstart : front <+: cs)
    (hend : back <:+ cs) (hfront : front ≠ []) (hback : back ≠ [])
    (hf : ∀ c ∈ front, isBlank c = false) (hb : ∀ c ∈ back, isBlank c = false) : trim cs = cs := by
  refine trim_eq_self (fun c hc => ?_) fun c hc => ?_
  · obtain ⟨rest, rfl⟩ := hstart
    rw [List.head?_append_of_ne_nil _ hfront] at hc
    exact hf c (List.mem_of_mem_head? hc)
  · obtain ⟨rest, rfl⟩ := hend
    rw [List.getLast?_append_of_ne_nil _ hback] at hc
    exact hb c (List.mem_of_mem_getLast? hc)

/-- Parentheses stay as they are, with blanks inside them. -/
theorem trim_parens (cs : List Char) : trim ('(' :: (cs ++ [')'])) = '(' :: (cs ++ [')']) := by
  have hfirst : ['('] <+: '(' :: (cs ++ [')']) := List.prefix_append ['('] _
  have hlast : [')'] <:+ '(' :: (cs ++ [')']) := List.suffix_append ('(' :: cs) [')']
  exact trim_eq_self_of_ends hfirst hlast (by simp) (by simp) (List.forall_mem_singleton.2 rfl)
    (List.forall_mem_singleton.2 rfl)

theorem trim_sublist {cs : List Char} : (trim cs).Sublist cs := by
  have hleft (ds : List Char) : (trimLeft ds).Sublist ds := List.dropWhile_sublist isBlank
  have hright := (hleft (trimLeft cs).reverse).reverse
  rw [List.reverse_reverse] at hright
  exact hright.trans (hleft cs)

/-- **A text is what is left of it with blanks around.** -/
theorem exists_blanks (cs : List Char) :
    ∃ front back, IsBlanks front ∧ IsBlanks back ∧ cs = front ++ trim cs ++ back := by
  have hrun (ds : List Char) : ∃ blanks, IsBlanks blanks ∧ ds = blanks ++ trimLeft ds :=
    ⟨ds.takeWhile isBlank, fun _ hc => List.mem_takeWhile_imp hc,
      List.takeWhile_append_dropWhile.symm⟩
  obtain ⟨front, hfront, hcs⟩ := hrun cs
  obtain ⟨back, hback, hrest⟩ := hrun (trimLeft cs).reverse
  refine ⟨front, back.reverse, hfront, fun c hc => hback c (List.mem_reverse.1 hc), ?_⟩
  rw [List.append_assoc, trim, trimRight, ← List.reverse_append, ← hrest, List.reverse_reverse]
  exact hcs

/-- What a text starts with stays if it is no blank. -/
theorem exists_trim_cons {c : Char} (h : isBlank c = false) (cs : List Char) :
    ∃ rest, trim (c :: cs) = c :: rest := by
  obtain ⟨front, back, hfront, hback, hcs⟩ := exists_blanks (c :: cs)
  have hnot {blanks : List Char} (hblanks : IsBlanks blanks) : c ∉ blanks := fun hmem => by
    rw [hblanks c hmem] at h
    cases h
  cases front with
  | cons f front =>
    obtain rfl := (List.cons.inj hcs).1
    exact absurd List.mem_cons_self (hnot hfront)
  | nil =>
    cases htrim : trim (c :: cs) with
    | nil =>
      rw [htrim, List.append_nil, List.nil_append] at hcs
      exact absurd (hcs ▸ List.mem_cons_self) (hnot hback)
    | cons d rest =>
      rw [htrim] at hcs
      exact ⟨rest, by rw [(List.cons.inj hcs).1]⟩

/-- What is left has no blanks at its ends. -/
theorem trim_trim (cs : List Char) : trim (trim cs) = trim cs := by
  obtain ⟨front, back, hfront, hback, hcs⟩ := exists_blanks cs
  have htrim := congrArg trim hcs
  rw [trim_append_blanks hback, trim_blanks_append hfront] at htrim
  exact htrim.symm

/-! ## Cutting -/

section

variable {mark : List Char} {c m : Char} {xs ys front : List Char}

/-- A text is cut at the first of its marks, whatever their length. -/
theorem cut?_append_mark {ms : List Char} (h : m ∉ front) (back : List Char) :
    cut? (m :: ms) (front ++ (m :: ms ++ back)) = some (front, back) := by
  induction front with
  | nil => simp [cut?]
  | cons c front ih =>
    rw [List.mem_cons, not_or] at h
    have hnot : ¬ (m :: ms).isPrefixOf (c :: (front ++ (m :: ms ++ back))) := by simp [h.1]
    rw [List.cons_append, cut?, if_neg hnot, ih h.2]
    rfl

/-- A text is cut at the first of its marks. -/
theorem cut?_append {mark : Char} {front : List Char} (h : mark ∉ front) (back : List Char) :
    cut? [mark] (front ++ mark :: back) = some (front, back) :=
  cut?_append_mark h back

/-- What a text is cut into. -/
theorem eq_of_cut? {back : List Char} (h : cut? mark xs = some (front, back)) :
    xs = front ++ (mark ++ back) := by
  induction xs generalizing front with
  | nil => cases h
  | cons c cs ih =>
    rw [cut?] at h
    split_ifs at h with hmark
    · cases h
      exact (List.prefix_iff_eq_append.1 (List.isPrefixOf_iff_prefix.1 hmark)).symm
    · obtain ⟨⟨rest, _⟩, hrest, heq⟩ := Option.map_eq_some_iff.1 h
      cases heq
      rw [ih hrest]
      rfl

@[simp] theorem contains_nil : contains mark [] = false := rfl

/-- Marks are what the text has somewhere. -/
theorem contains_iff (hne : mark ≠ []) : contains mark xs ↔ mark <:+: xs := by
  induction xs with
  | nil => simp [hne]
  | cons c cs ih =>
    rw [List.infix_cons_iff, ← List.isPrefixOf_iff_prefix, ← ih, contains, contains, cut?]
    split_ifs with h
    · simp [h]
    · simp [h]

theorem cut?_eq_none (h : contains mark xs = false) : cut? mark xs = none := by
  rwa [contains, Option.isSome_eq_false_iff, Option.isNone_iff_eq_none] at h

/-- A text without the first character of a mark does not have the mark. -/
theorem contains_eq_false {ms : List Char} (h : m ∉ xs) : contains (m :: ms) xs = false := by
  rw [Bool.eq_false_iff, Ne, contains_iff (List.cons_ne_nil m ms)]
  exact fun hin => h (hin.subset (List.mem_cons_self ..))

/-- What starts a text ends in front of a character that it does not have. -/
theorem prefix_of_notMem (hc : c ∉ mark) (h : mark <+: xs ++ c :: ys) : mark <+: xs := by
  refine List.prefix_of_prefix_length_le h (List.prefix_append _ _) ?_
  by_contra! hlt
  have hfront : xs ++ [c] <+: xs ++ c :: ys := ⟨ys, by simp⟩
  have hle := List.prefix_of_prefix_length_le hfront h (by simp; omega)
  exact hc (hle.subset (by simp))

/-- A mark stands in front of a character that it does not have, or behind
    it. -/
theorem contains_append_cons (hne : mark ≠ []) (hc : c ∉ mark) :
    contains mark (xs ++ c :: ys) = (contains mark xs || contains mark ys) := by
  rw [Bool.eq_iff_iff, Bool.or_eq_true, contains_iff hne, contains_iff hne, contains_iff hne]
  constructor
  · intro h
    induction xs with
    | nil =>
      rw [List.nil_append, List.infix_cons_iff] at h
      exact h.imp_left fun h => (@prefix_of_notMem mark c [] ys hc h).isInfix
    | cons x xs ih =>
      rw [List.cons_append, List.infix_cons_iff] at h
      rcases h with h | h
      · exact .inl (@prefix_of_notMem mark c (x :: xs) ys hc h).isInfix
      · exact (ih h).imp_left fun h => h.trans (List.suffix_cons x xs).isInfix
  · rintro (h | h)
    · exact h.trans (List.prefix_append _ _).isInfix
    · exact h.trans ((List.suffix_cons c ys).trans (List.suffix_append _ _)).isInfix

theorem contains_cons (hne : mark ≠ []) (hc : c ∉ mark) :
    contains mark (c :: ys) = contains mark ys :=
  @contains_append_cons mark c [] ys hne hc

end

/-! ## Dropping a known end -/

theorem dropStart?_append (start cs : List Char) : dropStart? start (start ++ cs) = some cs := by
  rw [dropStart?, if_pos (List.isPrefixOf_iff_prefix.2 (List.prefix_append _ _)), List.drop_left]

theorem dropEnd?_append (cs ending : List Char) : dropEnd? ending (cs ++ ending) = some cs := by
  rw [dropEnd?, List.reverse_append, dropStart?_append, Option.map_some, List.reverse_reverse]

/-- What stands in parentheses. -/
theorem dropParens (cs : List Char) :
    (dropStart? ['('] ('(' :: (cs ++ [')']))).bind (dropEnd? [')']) = some cs := by
  have hopen : dropStart? ['('] ('(' :: (cs ++ [')'])) = some (cs ++ [')']) :=
    dropStart?_append ['('] _
  rw [hopen, Option.bind_some, dropEnd?_append]

/-! ## Pieces between marks -/

/-- No piece has the mark. -/
theorem notMem_of_mem_splitOn {mark : Char} {cs : List Char} :
    ∀ piece ∈ cs.splitOn mark, mark ∉ piece := by
  induction cs with
  | nil => simp [List.splitOn, List.splitOnP_nil]
  | cons c cs ih =>
    rw [List.splitOn] at ih
    rw [List.splitOn, List.splitOnP_cons_eq_if_modifyHead]
    split
    · simpa using ih
    · next hc =>
      cases hpieces : cs.splitOnP (· == mark) with
      | nil => exact absurd hpieces (List.splitOnP_ne_nil _ _)
      | cons first rest =>
        rw [hpieces] at ih
        simp only [List.modifyHead_cons, List.forall_mem_cons] at ih ⊢
        refine ⟨?_, ih.2⟩
        rintro (_ | ⟨_, hfirst⟩)
        · simp at hc
        · exact ih.1 hfirst

end JointProb.Text
