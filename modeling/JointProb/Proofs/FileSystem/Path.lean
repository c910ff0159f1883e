/-
  JointProb — the names of a path and of the one beside it.

  * `Path.names_of_getLast?`: a path with a last name leads to that name in its
    parent;
  * `Path.splitName_eq_some`: the two parts of a file name, around its last
    dot;
  * `Path.withExtension_cases`: another extension with a dot in it leads to
    another name in the same directory, or stays at a path that is no file's.
-/
import JointProb.FileSystem.Path
import JointProb.Proofs.Text.Cut

namespace JointProb.Path

variable (p : Path)

/-! ## Names -/

theorem filter_dropWhile_staysHere (pieces : List String) :
    (pieces.dropWhile staysHere).filter (fun piece => !staysHere piece) =
      pieces.filter fun piece => !staysHere piece := by
  induction pieces with
  | nil => rfl
  | cons piece pieces ih => cases h : staysHere piece <;> simp [h, ih]

/-- Nothing but pieces that stay where they are is missing in the core. -/
theorem names_core : (Path.mk p.core).names = p.names := by
  rw [names, core, List.filter_reverse, filter_dropWhile_staysHere, ← List.filter_reverse,
    List.reverse_reverse, filter_dropWhile_staysHere, names]

theorem staysHere_getLast?_core {piece : String} (h : p.core.getLast? = some piece) :
    staysHere piece = false := by
  have hhead := List.head?_dropWhile_not staysHere (p.pieces.dropWhile staysHere).reverse
  rw [core, List.getLast?_reverse] at h
  rwa [h] at hhead

/-- The last name stands in the parent. -/
theorem names_of_getLast? {name : String} (h : p.names.getLast? = some name) :
    p.names = p.parent.names ++ [name] := by
  obtain hcore | ⟨front, piece, hcore⟩ := List.eq_nil_or_concat p.core
  · rw [← names_core, hcore] at h
    cases h
  · rw [List.concat_eq_append] at hcore
    have hpiece : staysHere piece = false := p.staysHere_getLast?_core (by simp [hcore])
    have hnames : p.names = p.parent.names ++ [piece] := by
      rw [← names_core, parent, hcore, List.dropLast_concat, names, names, List.filter_append]
      simp [hpiece]
    rw [hnames, List.getLast?_concat] at h
    rw [hnames, Option.some.inj h]

theorem names_child {name : String} (h : staysHere name = false) :
    (p.child name).names = p.names ++ [name] := by
  have hname : [name].filter (fun piece => !staysHere piece) = [name] := by simp [h]
  obtain hpieces | ⟨front, piece, hpieces⟩ := List.eq_nil_or_concat p.pieces
  · simp only [child, names, hpieces, List.getLast?_nil, List.filter_append, hname]
  · rw [List.concat_eq_append] at hpieces
    simp only [child, names, hpieces, List.getLast?_concat]
    split
    · next hempty =>
      cases hempty
      rw [List.dropLast_concat, List.filter_append, List.filter_append, hname,
        List.filter_singleton]
      simp [staysHere]
    · rw [List.filter_append, hname]

/-! ## Extensions -/

variable {name stem : String}

/-- Without an extension the stem is the whole name. -/
theorem splitName_eq_none (h : splitName name = (stem, none)) : stem = name := by
  simp only [splitName] at h
  split at h
  · split at h <;> cases h
    rfl
  · cases h
    rfl

/-- **The extension is what stands behind the last dot.** -/
theorem splitName_eq_some {extension : String} (h : splitName name = (stem, some extension)) :
    name.toList = stem.toList ++ '.' :: extension.toList ∧ '.' ∉ extension.toList := by
  simp only [splitName] at h
  split at h
  · next ending piece pieces hsplit =>
    have hjoin : ['.'].intercalate (name.toList.reverse.splitOn '.') = name.toList.reverse :=
      List.intercalate_splitOn '.'
    have hending := Text.notMem_of_mem_splitOn ending (hsplit ▸ List.mem_cons_self)
    rw [hsplit, List.intercalate_cons_cons] at hjoin
    split at h <;> cases h
    refine ⟨?_, by simpa using hending⟩
    rw [← List.reverse_reverse name.toList, ← hjoin]
    simp
  · cases h

/-- An extension with a dot in it makes another name. -/
theorem splitName_append_ne (name : String) {extension : String} (h : '.' ∈ extension.toList) :
    (splitName name).1 ++ "." ++ extension ≠ name := by
  intro hname
  cases hsplit : splitName name with
  | mk stem old =>
    rw [hsplit] at hname
    have hlist := congrArg String.toList hname
    simp only [String.toList_append] at hlist
    cases old with
    | none =>
      rw [splitName_eq_none hsplit] at hlist
      simp at hlist
    | some old =>
      obtain ⟨hold, hdot⟩ := splitName_eq_some hsplit
      rw [hold, List.append_assoc] at hlist
      have htail := List.append_cancel_left hlist
      simp only [String.reduceToList, List.singleton_append, List.cons.injEq, true_and] at htail
      exact hdot (htail ▸ h)

theorem staysHere_append {extension : String} (h : '.' ∈ extension.toList) :
    staysHere (stem ++ "." ++ extension) = false := by
  have hlength : 0 < extension.toList.length := List.length_pos_of_mem h
  have hne (short : String) (hshort : short.toList.length ≤ 1) : stem ++ "." ++ extension ≠ short := by
    rintro rfl
    simp only [String.toList_append, List.length_append, String.reduceToList,
      List.length_singleton] at hshort
    omega
  simp [staysHere, hne "" (by decide), hne "." (by decide)]

/-- **The path with another extension**: no file is at the end of the path and
    it stays, or another name takes the place of the last one. -/
theorem withExtension_cases {extension : String} (h : '.' ∈ extension.toList) :
    (p.names.getLast?.all (· == "..") ∧ p.withExtension extension = p) ∨
      ∃ name other, name ≠ ".." ∧ other ≠ name ∧ p.names = p.parent.names ++ [name] ∧
        (p.withExtension extension).names = p.parent.names ++ [other] := by
  cases hname : p.fileName? with
  | none =>
    refine .inl ⟨?_, by rw [withExtension, hname]⟩
    rw [fileName?] at hname
    cases hlast : p.names.getLast? with
    | none => rfl
    | some name =>
      rw [hlast] at hname
      simpa using hname
  | some name =>
    obtain ⟨hlast, hup⟩ := Option.filter_eq_some_iff.1 hname
    have hup : name ≠ ".." := by simpa using hup
    have hnames := p.names_of_getLast? hlast
    simp only [withExtension, hname]
    split
    · exact .inr ⟨name, "..", hup, hup.symm, hnames, p.parent.names_child rfl⟩
    · exact .inr ⟨name, _, hup, splitName_append_ne name h, hnames,
        p.parent.names_child (staysHere_append h)⟩

end JointProb.Path
