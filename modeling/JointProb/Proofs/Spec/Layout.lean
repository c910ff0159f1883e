/-
  JointProb — the layout of specifications.

        # joint probabilities             (nothing)
      variables: Rain, Late               variables: Rain, Late
                                          (nothing)
        00: 0.6     # most likely         00: 0.6

  Blank lines, comments and the blanks around a line say nothing.  A carriage
  return in front of a line feed is one of these blanks.

  * `Line.Lays` holds of contents and of lines that say them in their order;
  * `Line.lays_lines`: so do the lines of a text, whatever its layout;
  * `Line.Lays.map_snd_numbered`: and all other lines that do so are read as the
    same contents.
-/
import JointProb.Proofs.Spec.Line

namespace JointProb.Line

open Text

/-! ## Void text -/

/-- Blanks, and perhaps a comment behind them. -/
inductive IsVoid : List Char → Prop
  | blanks {blanks : List Char} (h : IsBlanks blanks) : IsVoid blanks
  | comment {blanks : List Char} (h : IsBlanks blanks) (text : List Char) :
      IsVoid (blanks ++ '#' :: text)

variable {blanks cs l tail : List Char}

theorem ne_mark_of_isBlanks (h : IsBlanks blanks) : ∀ c ∈ blanks, (c != '#') = true := by
  intro c hc
  rw [bne_iff_ne]
  rintro rfl
  exact absurd (h _ hc) (by decide)

/-- In front of a comment there is nothing but blanks. -/
theorem IsVoid.isBlanks_takeWhile (h : IsVoid cs) : IsBlanks (cs.takeWhile (· != '#')) := by
  cases h with
  | blanks h => exact fun c hc => h c (List.takeWhile_subset _ hc)
  | comment h text =>
    rw [takeWhile_append (ne_mark_of_isBlanks h) (by simp)]
    exact h

theorem IsVoid.content?_eq (h : IsVoid cs) : content? cs = none := by
  simp [content?, trim_blanks h.isBlanks_takeWhile]

/-- What is put around a line does not change what it says. -/
theorem content?_around (hblanks : IsBlanks blanks) (htail : IsVoid tail) (l : List Char) :
    content? (blanks ++ l ++ tail) = content? l := by
  have htrim : trim ((blanks ++ l ++ tail).takeWhile (· != '#')) =
      trim (l.takeWhile (· != '#')) := by
    rw [List.append_assoc, List.takeWhile_append_of_pos (ne_mark_of_isBlanks hblanks),
      trim_blanks_append hblanks, List.takeWhile_append]
    split_ifs with hlen
    · -- the line has no comment of its own
      rw [(List.takeWhile_prefix _).eq_of_length hlen,
        trim_append_blanks htail.isBlanks_takeWhile]
    · rfl
  simp only [content?, htrim]

/-! ## Lines -/

/-- Lines that say contents in their order, with void lines anywhere, blanks in
    front of a content, and blanks and perhaps a comment behind it. -/
inductive Lays : List (List Char) → List (List Char) → Prop
  | nil : Lays [] []
  | void {l : List Char} {contents ls : List (List Char)} (h : IsVoid l) (hrest : Lays contents ls) :
      Lays contents (l :: ls)
  | line {blanks c tail : List Char} {contents ls : List (List Char)} (hblanks : IsBlanks blanks)
      (htail : IsVoid tail) (hrest : Lays contents ls) :
      Lays (c :: contents) ((blanks ++ c ++ tail) :: ls)

theorem Lays.filterMap_content? {contents ls : List (List Char)} (h : Lays contents ls) :
    ls.filterMap content? = contents.filterMap content? := by
  induction h with
  | nil => rfl
  | void h _ ih => rw [List.filterMap_cons_none h.content?_eq, ih]
  | line hblanks htail _ ih =>
    rw [List.filterMap_cons, List.filterMap_cons, content?_around hblanks htail, ih]

/-- **Lines that say the same contents are read as the same contents.** -/
theorem Lays.map_snd_numbered {contents : List (List Char)} {text : String}
    (h : Lays contents (lines text.toList)) (hself : ∀ c ∈ contents, content? c = some c) :
    (numbered text).map Prod.snd = contents := by
  rw [map_snd_numbered_eq, h.filterMap_content?, List.filterMap_congr hself, List.filterMap_some]

/-! ## The layout of a text -/

/-- A text is cut in front of its comment. -/
theorem exists_comment (cs : List Char) : ∃ comment, cs = cs.takeWhile (· != '#') ++ comment ∧
    ∀ blanks, IsBlanks blanks → IsVoid (blanks ++ comment) := by
  refine ⟨cs.dropWhile (· != '#'), List.takeWhile_append_dropWhile.symm, fun blanks h => ?_⟩
  cases hrest : cs.dropWhile (· != '#') with
  | nil =>
    rw [List.append_nil]
    exact .blanks h
  | cons c rest =>
    have hmark : c = '#' := by
      have hhead := List.head?_dropWhile_not (· != '#') cs
      simpa [hrest] using hhead
    rw [hmark]
    exact .comment h rest

/-- What a line says is its own content. -/
theorem content?_eq_self_of_content? {c : List Char} (h : content? l = some c) :
    content? c = some c := by
  simp only [content?] at h
  split_ifs at h with hempty
  cases h
  refine content?_eq_self (fun hc => ?_) (trim_trim _) (by simpa using hempty)
  have hbefore := List.mem_takeWhile_imp (trim_sublist.subset hc)
  simp at hbefore

theorem content?_of_mem_numbered {text : String} {c : List Char}
    (h : c ∈ (numbered text).map Prod.snd) : content? c = some c := by
  rw [map_snd_numbered_eq, List.mem_filterMap] at h
  obtain ⟨l, -, hl⟩ := h
  exact content?_eq_self_of_content? hl

/-- A line says its content, or nothing. -/
theorem lays_cons {contents ls : List (List Char)} (h : Lays contents ls) (l : List Char) :
    Lays ((content? l).toList ++ contents) (l :: ls) := by
  obtain ⟨comment, hl, hvoid⟩ := exists_comment l
  obtain ⟨front, back, hfront, hback, htrim⟩ := exists_blanks (l.takeWhile (· != '#'))
  simp only [content?]
  split_ifs with hempty
  · rw [List.isEmpty_iff.1 hempty, List.append_nil] at htrim
    refine .void ?_ h
    rw [hl, htrim]
    exact hvoid _ (List.forall_mem_append.2 ⟨hfront, hback⟩)
  · have hline : front ++ trim (l.takeWhile (· != '#')) ++ (back ++ comment) = l := by
      rw [← List.append_assoc, ← htrim]
      exact hl.symm
    have hsays := Lays.line (c := trim (l.takeWhile (· != '#'))) hfront (hvoid back hback) h
    rwa [hline] at hsays

/-- **The lines of a text say its contents**, whatever its layout. -/
theorem lays_lines (text : String) :
    Lays ((numbered text).map Prod.snd) (lines text.toList) := by
  rw [map_snd_numbered_eq]
  generalize lines text.toList = ls
  induction ls with
  | nil => exact .nil
  | cons l ls ih =>
    have hcons := lays_cons ih l
    cases hl : content? l with
    | none =>
      rw [List.filterMap_cons_none hl]
      rwa [hl] at hcons
    | some c =>
      rw [List.filterMap_cons_some hl]
      rwa [hl] at hcons

end JointProb.Line
