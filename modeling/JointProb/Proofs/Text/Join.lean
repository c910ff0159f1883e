/-
  JointProb — texts put together, and taken apart again.

  * `commaList` puts commas between texts;
  * `fields_commaList`: its fields are the texts, also after a blank;
    `commaList_inj`: so no other texts without commas make it;
  * `contains_commaList`: a mark without commas and blanks stands in one of
    the texts;
  * `flatMap_append_mark`: texts with a mark after each of them are texts with
    a mark between them, and an empty one at the end.
-/
import JointProb.Proofs.Text.Cut

namespace JointProb.Text

variable {xs : List (List Char)}

/-- Texts with a comma and a blank between them. -/
def commaList (xs : List (List Char)) : List Char := [',', ' '].intercalate xs

@[simp] theorem commaList_nil : commaList [] = [] := rfl

@[simp] theorem commaList_singleton (x : List Char) : commaList [x] = x :=
  List.intercalate_singleton

@[simp] theorem commaList_cons_cons (x y : List Char) (xs : List (List Char)) :
    commaList (x :: y :: xs) = x ++ ',' :: ' ' :: commaList (y :: xs) := by
  simp [commaList, List.intercalate_cons_cons]

/-- What texts with a mark between them have. -/
theorem mem_intercalate {mark : List Char} {c : Char} (h : c ∈ mark.intercalate xs) :
    c ∈ mark ∨ ∃ x ∈ xs, c ∈ x := by
  induction xs with
  | nil => cases h
  | cons x xs ih =>
    cases xs with
    | nil => exact .inr ⟨x, by simp, by simpa using h⟩
    | cons y xs =>
      rw [List.intercalate_cons_cons, List.mem_append, List.mem_append] at h
      rcases h with (h | h) | h
      · exact .inr ⟨x, by simp, h⟩
      · exact .inl h
      · refine (ih h).imp_right ?_
        rintro ⟨z, hz, hc⟩
        exact ⟨z, List.mem_cons_of_mem x hz, hc⟩

/-- What a list of texts has. -/
theorem mem_commaList {c : Char} (h : c ∈ commaList xs) : c = ',' ∨ c = ' ' ∨ ∃ x ∈ xs, c ∈ x := by
  rcases mem_intercalate h with hmark | htext
  · simp only [List.mem_cons, List.not_mem_nil, or_false] at hmark
    exact hmark.imp_right .inl
  · exact .inr (.inr htext)

/-- A character other than the comma and the blank is in none of the texts if
    it is not in the list. -/
theorem notMem_commaList {c : Char} (hcomma : c ≠ ',') (hblank : c ≠ ' ') (h : ∀ x ∈ xs, c ∉ x) :
    c ∉ commaList xs := by
  intro hc
  obtain hc | hc | ⟨x, hx, hc⟩ := mem_commaList hc
  · exact hcomma hc
  · exact hblank hc
  · exact h x hx hc

/-- A mark without commas and blanks stands in one of the texts. -/
theorem contains_commaList {mark : List Char} (hne : mark ≠ []) (hcomma : ',' ∉ mark)
    (hblank : ' ' ∉ mark) (h : ∀ x ∈ xs, contains mark x = false) :
    contains mark (commaList xs) = false := by
  induction xs with
  | nil => rfl
  | cons x xs ih =>
    obtain ⟨hx, hxs⟩ := List.forall_mem_cons.1 h
    cases xs with
    | nil => rwa [commaList_singleton]
    | cons y xs =>
      rw [commaList_cons_cons, contains_append_cons hne hcomma, hx, contains_cons hne hblank,
        ih hxs]
      rfl

/-! ## Fields -/

theorem isBlanks_blank : IsBlanks [' '] := by simp [IsBlanks]; decide

/-- A blank in front of a text is dropped. -/
theorem trim_blank_cons (cs : List Char) : trim (' ' :: cs) = trim cs :=
  trim_blanks_append isBlanks_blank cs

/-- A blank after a text is dropped. -/
theorem trim_append_blank (cs : List Char) : trim (cs ++ [' ']) = trim cs :=
  trim_append_blanks isBlanks_blank cs

/-- The blanks after the commas belong to the next text. -/
theorem commaList_cons (x : List Char) (xs : List (List Char)) :
    commaList (x :: xs) = [','].intercalate (x :: xs.map (' ' :: ·)) := by
  induction xs generalizing x with
  | nil => simp
  | cons y xs ih =>
    rw [commaList_cons_cons, ih y, List.map_cons, List.intercalate_cons_cons]
    cases xs <;> simp [List.intercalate_cons_cons]

/-- **The fields of a list are its texts.** -/
theorem fields_commaList (hne : xs ≠ []) (h : ∀ x ∈ xs, ',' ∉ x) :
    fields (commaList xs) = xs.map trim := by
  cases xs with
  | nil => exact absurd rfl hne
  | cons x xs =>
    have hcomma : ∀ y ∈ x :: xs.map (' ' :: ·), ',' ∉ y := by simpa using h
    rw [commaList_cons, fields, List.splitOn_intercalate ',' hcomma (List.cons_ne_nil _ _)]
    simp [Function.comp_def, trim_blank_cons]

/-- Also after a blank. -/
theorem fields_blank_commaList (hne : xs ≠ []) (h : ∀ x ∈ xs, ',' ∉ x) :
    fields (' ' :: commaList xs) = xs.map trim := by
  cases xs with
  | nil => exact absurd rfl hne
  | cons x xs =>
    have hblank : ' ' :: commaList (x :: xs) = commaList ((' ' :: x) :: xs) := by
      cases xs <;> simp
    rw [hblank, fields_commaList (List.cons_ne_nil _ _) (by simpa using h)]
    simp [trim_blank_cons]

/-- Texts without commas can be told from the list of them. -/
theorem commaList_inj {ys : List (List Char)} (hxs : xs ≠ []) (hys : ys ≠ [])
    (hx : ∀ x ∈ xs, ',' ∉ x) (hy : ∀ y ∈ ys, ',' ∉ y) (h : commaList xs = commaList ys) :
    xs = ys := by
  obtain ⟨x, xs, rfl⟩ := List.exists_cons_of_ne_nil hxs
  obtain ⟨y, ys, rfl⟩ := List.exists_cons_of_ne_nil hys
  have hsplit := congrArg (List.splitOn ',') h
  rw [commaList_cons, commaList_cons, List.splitOn_intercalate ',' (by simpa using hx) (by simp),
    List.splitOn_intercalate ',' (by simpa using hy) (by simp)] at hsplit
  obtain ⟨rfl, htail⟩ := List.cons.inj hsplit
  rw [List.map_inj_right fun _ _ => List.tail_eq_of_cons_eq] at htail
  rw [htail]

/-! ## Marks after texts -/

/-- A mark after each text is a mark between the texts and an empty one. -/
theorem flatMap_append_mark (mark : List Char) (xs : List (List Char)) :
    xs.flatMap (· ++ mark) = mark.intercalate (xs ++ [[]]) := by
  induction xs with
  | nil => rfl
  | cons x xs ih =>
    rw [List.flatMap_cons, ih]
    cases xs with
    | nil => simp
    | cons y xs => simp [List.intercalate_cons_cons]

end JointProb.Text
