/-
  JointProb — what the lines of specifications say.

  * `Line.map_snd_numbered_eq`: the contents of a text line by line;
    `Line.content?_eq_self` and `Line.map_snd_numbered` if the lines have no
    comments and no blanks at their ends;
  * `Line.variablesHeader?_eq_none`: a header has a colon;
  * `IsProbability` are the numbers from zero to one;
    `Line.probability_eq_ok` and `Line.isProbability_of_probability`: those are
    read, and only those.
-/
import JointProb.Proofs.Exact
import JointProb.Proofs.Text.Cut
import JointProb.Spec.Line

namespace JointProb

/-- A number from zero to one. -/
def IsProbability (p : ℚ) : Prop := 0 ≤ p ∧ p ≤ 1

instance (p : ℚ) : Decidable (IsProbability p) := inferInstanceAs (Decidable (_ ∧ _))

namespace IsProbability

theorem zero : IsProbability 0 := ⟨le_rfl, zero_le_one⟩

theorem complement {p : ℚ} (h : IsProbability p) : IsProbability (1 - p) :=
  ⟨sub_nonneg.2 h.2, sub_le_self 1 h.1⟩

/-- What a list of probabilities with keys has for a key, zero if nothing. -/
theorem getD_lookup {cells : List (Nat × ℚ)} (h : ∀ x ∈ cells, IsProbability x.2) (i : Nat) :
    IsProbability ((cells.lookup i).getD 0) := by
  induction cells with
  | nil => exact zero
  | cons x cells ih =>
    rw [List.lookup_cons]
    cases i == x.1 with
    | true => exact h x (by simp)
    | false => exact ih fun y hy => h y (List.mem_cons_of_mem x hy)

end IsProbability

namespace Line

open Text

/-! ## Contents -/

/-- A line without a comment and without blanks at its ends is its content. -/
theorem content?_eq_self {cs : List Char} (hcomment : '#' ∉ cs) (htrim : trim cs = cs)
    (hne : cs ≠ []) : content? cs = some cs := by
  have hall : cs.takeWhile (· != '#') = cs :=
    List.takeWhile_eq_self_iff.2 fun c hc => by simpa using fun h : c = '#' => hcomment (h ▸ hc)
  have hcontent : trim (cs.takeWhile (· != '#')) = cs := by rw [hall, htrim]
  simp [content?, hcontent, hne]

/-- The contents of a text are those of its lines, one by one. -/
theorem map_snd_numbered_eq (text : String) :
    (numbered text).map Prod.snd = (lines text.toList).filterMap content? := by
  rw [numbered]
  generalize lines text.toList = ls
  generalize 1 = start
  induction ls generalizing start with
  | nil => rfl
  | cons l ls ih =>
    rw [List.zipIdx_cons]
    cases hl : content? l with
    | none => simpa [List.filterMap_cons, hl] using ih (start + 1)
    | some c => simpa [List.filterMap_cons, hl] using ih (start + 1)

/-- So are those of lines with line feeds between them. -/
theorem map_snd_numbered_filterMap {ls : List (List Char)} (hne : ls ≠ [])
    (hfeed : ∀ l ∈ ls, '\n' ∉ l) :
    (numbered (String.ofList (['\n'].intercalate ls))).map Prod.snd = ls.filterMap content? := by
  rw [map_snd_numbered_eq, String.toList_ofList, lines, List.splitOn_intercalate '\n' hfeed hne]

/-- The contents of lines that are their own contents. -/
theorem map_snd_numbered {ls : List (List Char)} (hne : ls ≠ []) (hfeed : ∀ l ∈ ls, '\n' ∉ l)
    (h : ∀ l ∈ ls, content? l = some l) :
    (numbered (String.ofList (['\n'].intercalate ls))).map Prod.snd = ls := by
  rw [map_snd_numbered_filterMap hne hfeed, List.filterMap_congr h, List.filterMap_some]

/-- Names of variables stand behind the word and a colon. -/
theorem isSome_variablesHeader?_iff {cs : List Char} : (variablesHeader? cs).isSome ↔
    ∃ word, word.map Char.toLower = "variables".toList ∧ word ++ [':'] <+: cs := by
  have hheader : (variablesHeader? cs).isSome ↔
      (cs.take 10).map Char.toLower = "variables".toList ++ [':'] := by
    simp [variablesHeader?, equalUpToCase]
  rw [hheader]
  constructor
  · intro h
    obtain ⟨word, colon, hsplit, hword, hcolon⟩ := List.map_eq_append_iff.1 h
    obtain ⟨c, rfl, hc⟩ := List.map_eq_singleton_iff.1 hcolon
    rw [eq_of_toLower_eq hc rfl] at hsplit
    exact ⟨word, hword, hsplit ▸ List.take_prefix 10 cs⟩
  · rintro ⟨word, hword, rest, rfl⟩
    have hlen : (word ++ [':']).length = 10 := by
      have := congrArg List.length hword
      simpa using this
    rw [List.take_left' hlen, List.map_append, hword]
    rfl

/-- The header of variables has a colon. -/
theorem variablesHeader?_eq_none {cs : List Char} (h : ':' ∉ cs) : variablesHeader? cs = none := by
  rw [← Option.not_isSome_iff_eq_none, isSome_variablesHeader?_iff]
  rintro ⟨word, -, hword⟩
  exact h (hword.subset (by simp))

/-! ## Probabilities -/

/-- A finite number between zero and one that is written is read. -/
theorem probability_eq_ok {α : Type} [Scalar α] {line : Nat} {value : List Char} {p : α}
    (hread : (Decimal.Literal.read? (trim value)).bind Scalar.ofLiteral? = some p)
    (hp : Scalar.isFinite p ∧ 0 ≤ p ∧ p ≤ 1) : probability line value = .ok p := by
  simp only [probability, hread]
  exact if_pos hp

/-- A number is the same in each line. -/
theorem probability_of_line {α : Type} [Scalar α] {line : Nat} {value : List Char} {p : α}
    (h : probability line value = .ok p) (line' : Nat) : probability line' value = .ok p := by
  rw [probability] at h ⊢
  split at h
  · split_ifs at h with hp
    cases h
    exact if_pos hp
  · cases h

end Line

theorem Line.isProbability_of_probability {line : Nat} {cs : List Char} {p : ℚ}
    (h : Line.probability line cs = .ok p) : IsProbability p := by
  simp only [Line.probability] at h
  split at h
  · split_ifs at h with hp
    cases h
    exact hp.2
  · cases h

end JointProb
