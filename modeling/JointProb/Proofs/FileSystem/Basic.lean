/-
  JointProb — what file operations leave as it is.

  * `FileSystem.content?` is what a file holds; `content?_insert`: writing a
    file changes no file elsewhere;
  * `FileSystem.locate?_congr`: where paths lead depends on the directories
    only, and a change at a place without a directory keeps these;
  * `FileSystem.isDirectory_of_follow_up`: a path that ends in `..` leads to a
    directory;
  * `FileSystem.makeDirectories_iff`: directories are made exactly if a
    directory is at the end of the path afterwards; no file changes.
-/
import JointProb.FileSystem.Basic
import Mathlib.Data.List.Infix

namespace JointProb.FileSystem

variable {fs fs' : FileSystem} {place other : List String}

/-! ## Places -/

/-- What the file at a place holds. -/
def content? (fs : FileSystem) (place : List String) : Option ByteArray :=
  match fs.entry? place with
  | some (.file content) => some content
  | _ => none

theorem isDirectory_iff : fs.isDirectory place ↔ fs.entry? place = some .directory := by
  rw [isDirectory]
  split <;> simp_all

@[simp] theorem isDirectory_nil : fs.isDirectory [] = true := rfl

theorem ne_nil_of_isDirectory (h : fs.isDirectory place = false) : place ≠ [] := by
  rintro rfl
  cases h

theorem lookup_cons_eq_ite (e : List String × Entry) (entries : List (List String × Entry))
    (place : List String) :
    (e :: entries).lookup place = if place = e.1 then some e.2 else entries.lookup place := by
  rw [List.lookup_cons]
  split_ifs with h
  · rw [h, beq_self_eq_true]
  · rw [beq_false_of_ne h]

theorem lookup_erase (place other : List String) :
    (fs.erase place).entries.lookup other =
      if other = place then none else fs.entries.lookup other := by
  simp only [erase]
  induction fs.entries with
  | nil => simp
  | cons e entries ih =>
    by_cases he : e.1 = place
    · rw [List.filter_cons_of_neg (by simpa using he), ih, lookup_cons_eq_ite, he]
      split_ifs <;> rfl
    · rw [List.filter_cons_of_pos (by simpa using he), lookup_cons_eq_ite, lookup_cons_eq_ite, ih]
      split_ifs with h h'
      · exact absurd (h.symm.trans h') he
      all_goals rfl

theorem lookup_insert (place other : List String) (e : Entry) :
    (fs.insert place e).entries.lookup other =
      if other = place then some e else fs.entries.lookup other := by
  rw [insert, lookup_cons_eq_ite, lookup_erase]
  split_ifs <;> rfl

theorem entry?_erase (h : fs.isDirectory place = false) (other : List String) :
    entry? (fs.erase place) other = if other = place then none else fs.entry? other := by
  have hne := ne_nil_of_isDirectory h
  cases other with
  | nil => simp [hne.symm, entry?]
  | cons name names => exact lookup_erase place _

theorem entry?_insert (h : fs.isDirectory place = false) (e : Entry) (other : List String) :
    entry? (fs.insert place e) other = if other = place then some e else fs.entry? other := by
  have hne := ne_nil_of_isDirectory h
  cases other with
  | nil => simp [hne.symm, entry?]
  | cons name names => exact lookup_insert place _ e

/-! ## Files and directories after a change -/

theorem content?_insert (h : fs.isDirectory place = false) (content : ByteArray)
    (other : List String) : (fs.insert place (.file content)).content? other =
      if other = place then some content else fs.content? other := by
  rw [content?, entry?_insert h]
  split_ifs <;> rfl

theorem isDirectory_erase (h : fs.isDirectory place = false) (other : List String) :
    (fs.erase place).isDirectory other = fs.isDirectory other := by
  rw [isDirectory, entry?_erase h]
  split_ifs with heq
  · rw [heq, h]
  · rfl

theorem isDirectory_insert (h : fs.isDirectory place = false) (content : ByteArray)
    (other : List String) :
    (fs.insert place (.file content)).isDirectory other = fs.isDirectory other := by
  rw [isDirectory, entry?_insert h]
  split_ifs with heq
  · rw [heq, h]
  · rfl

/-! ## Where paths lead -/

theorem follow?_congr (h : ∀ place, fs'.isDirectory place = fs.isDirectory place)
    (place names : List String) : fs'.follow? place names = fs.follow? place names := by
  induction names generalizing place with
  | nil => rfl
  | cons name names ih => simp only [follow?, h, ih]

/-- Where paths lead depends on the directories only. -/
theorem locate?_congr (h : ∀ place, fs'.isDirectory place = fs.isDirectory place) (p : Path) :
    fs'.locate? p = fs.locate? p := by
  simp only [locate?, follow?_congr h, h]

theorem follow?_append (place front names : List String) :
    fs.follow? place (front ++ names) = (fs.follow? place front).bind (fs.follow? · names) := by
  induction front generalizing place with
  | nil => rfl
  | cons name front ih =>
    simp only [List.cons_append, follow?]
    split_ifs
    · cases next? place name with
      | none => rfl
      | some next => exact ih next
    · rfl

theorem follow?_concat_eq_some_iff {start front : List String} {name : String} :
    fs.follow? start (front ++ [name]) = some place ↔ ∃ above,
      fs.follow? start front = some above ∧ fs.isDirectory above ∧ next? above name = some place := by
  rw [follow?_append, Option.bind_eq_some_iff]
  refine exists_congr fun above => and_congr_right fun _ => ?_
  simp only [follow?]
  split_ifs with h
  · cases next? above name <;> simp [h]
  · simp [h]

/-- Names lead through directories. -/
theorem isDirectory_of_prefix {names above : List String} (h : fs.follow? [] names = some place)
    (habove : above <+: place) (hne : above ≠ place) : fs.isDirectory above := by
  induction names using List.reverseRecOn generalizing place with
  | nil =>
    cases h
    exact absurd (List.prefix_nil.1 habove) hne
  | append_singleton front name ih =>
    obtain ⟨last, hlast, hdirectory, hnext⟩ := follow?_concat_eq_some_iff.1 h
    by_cases heq : above = last
    · rwa [heq]
    simp only [next?] at hnext
    split_ifs at hnext with hup hroot hfits
    · cases hnext
      exact ih hlast (habove.trans (List.dropLast_prefix last)) heq
    · cases hnext
      obtain hwhole | hshort := List.prefix_concat_iff.1 habove
      · exact absurd hwhole hne
      · exact ih hlast hshort heq

/-- **A path without names, or with `..` at its end, leads to a directory.** -/
theorem isDirectory_of_follow_up {names : List String} (hup : names.getLast?.all (· == ".."))
    (h : fs.follow? [] names = some place) : fs.isDirectory place := by
  obtain rfl | ⟨front, name, rfl⟩ := List.eq_nil_or_concat names
  · cases h
    rfl
  · rw [List.concat_eq_append] at h hup
    obtain ⟨last, hlast, -, hnext⟩ := follow?_concat_eq_some_iff.1 h
    have hname : name = ".." := by simpa using hup
    simp only [next?, hname, if_true] at hnext
    split_ifs at hnext with hroot
    cases hnext
    refine isDirectory_of_prefix hlast (List.dropLast_prefix last) fun heq => ?_
    have hlength := congrArg List.length heq
    have hpos := List.length_pos_iff.2 (by simpa using hroot : last ≠ [])
    rw [List.length_dropLast] at hlength
    omega

/-- Other names lead to other places. -/
theorem ne_of_follow_concat {start front : List String} {name name' : String} {place' : List String}
    (hne : name' ≠ name) (hname : name ≠ "..") (hname' : name' ≠ "..")
    (h : fs.follow? start (front ++ [name]) = some place)
    (h' : fs.follow? start (front ++ [name']) = some place') : place' ≠ place := by
  obtain ⟨above, habove, -, hnext⟩ := follow?_concat_eq_some_iff.1 h
  obtain ⟨above', habove', -, hnext'⟩ := follow?_concat_eq_some_iff.1 h'
  rw [habove] at habove'
  cases habove'
  simp only [next?, hname, hname', if_false] at hnext hnext'
  split_ifs at hnext hnext'
  cases hnext
  cases hnext'
  simpa using hne

/-! ## Directories on the way -/

theorem content?_insert_directory (h : fs.entry? place = none) (other : List String) :
    (fs.insert place .directory).content? other = fs.content? other := by
  have hdirectory : fs.isDirectory place = false := by rw [isDirectory, h]
  rw [content?, entry?_insert hdirectory]
  split_ifs with heq
  · rw [content?, heq, h]
  · rfl

theorem isDirectory_insert_directory (h : fs.entry? place = none)
    (hother : fs.isDirectory other) : (fs.insert place .directory).isDirectory other := by
  have hdirectory : fs.isDirectory place = false := by rw [isDirectory, h]
  rw [isDirectory, entry?_insert hdirectory]
  split_ifs
  · rfl
  · exact hother

theorem isDirectory_insert_directory_self (h : fs.entry? place = none) :
    (fs.insert place .directory).isDirectory place := by
  have hdirectory : fs.isDirectory place = false := by rw [isDirectory, h]
  rw [isDirectory, entry?_insert hdirectory, if_pos rfl]

/-- No file changes when directories are made. -/
theorem content?_makeDirectoriesFrom (place names : List String) (fs : FileSystem)
    (other : List String) :
    (makeDirectoriesFrom place names fs).2.content? other = fs.content? other := by
  induction names generalizing place fs with
  | nil => rfl
  | cons name names ih =>
    simp only [makeDirectoriesFrom]
    split
    · rfl
    · split
      · exact ih _ _
      · rfl
      · next hnone => rw [ih, content?_insert_directory hnone]

/-- Directories stay. -/
theorem isDirectory_makeDirectoriesFrom (place names : List String) {fs : FileSystem}
    (h : fs.isDirectory other) : (makeDirectoriesFrom place names fs).2.isDirectory other := by
  induction names generalizing place fs with
  | nil => exact h
  | cons name names ih =>
    simp only [makeDirectoriesFrom]
    split
    · exact h
    · split
      · exact ih _ h
      · exact h
      · next hnone => exact ih _ (isDirectory_insert_directory hnone h)

theorem makeDirectoriesFrom_iff (names : List String) (h : fs.isDirectory place) :
    (makeDirectoriesFrom place names fs).1 ↔ ∃ last,
      (makeDirectoriesFrom place names fs).2.follow? place names = some last ∧
        (makeDirectoriesFrom place names fs).2.isDirectory last := by
  induction names generalizing place fs with
  | nil => exact ⟨fun _ => ⟨place, rfl, h⟩, fun _ => rfl⟩
  | cons name names ih =>
    -- The first name leads on from a directory, which stays one.
    have hstart := isDirectory_makeDirectoriesFrom place (name :: names) h
    simp only [follow?, hstart, if_true]
    simp only [makeDirectoriesFrom]
    split
    · next hnext => simp [hnext]
    · next next hnext =>
      simp only [hnext]
      split
      · next hentry => exact ih (isDirectory_iff.2 hentry)
      · next content hentry =>
        have hfile : fs.isDirectory next = false := by rw [isDirectory, hentry]
        cases names <;> simp [follow?, hfile]
      · next hentry => exact ih (isDirectory_insert_directory_self hentry)

/-- **Directories are made exactly if a directory is at the end of the path
    afterwards.** -/
theorem makeDirectories_iff (fs : FileSystem) (p : Path) : (fs.makeDirectories p).1 ↔
    (fs.makeDirectories p).2.find? p = some .directory := by
  simp only [makeDirectories, find?, locate?]
  split_ifs with husable
  · rw [makeDirectoriesFrom_iff p.names isDirectory_nil, Option.bind_eq_some_iff]
    simp only [Option.filter_eq_some_iff, ← isDirectory_iff]
    refine exists_congr fun last => ⟨fun ⟨hlast, hdirectory⟩ => ⟨⟨hlast, ?_⟩, hdirectory⟩,
      fun ⟨⟨hlast, _⟩, hdirectory⟩ => ⟨hlast, hdirectory⟩⟩
    rw [hdirectory, Bool.or_true]
  · exact ⟨False.elim, fun h => by cases h⟩

theorem content?_makeDirectories (fs : FileSystem) (p : Path) (other : List String) :
    (fs.makeDirectories p).2.content? other = fs.content? other := by
  rw [makeDirectories]
  split_ifs
  · exact content?_makeDirectoriesFrom [] p.names fs other
  · rfl

theorem isDirectory_makeDirectories (p : Path) (h : fs.isDirectory other) :
    (fs.makeDirectories p).2.isDirectory other := by
  rw [makeDirectories]
  split_ifs
  · exact isDirectory_makeDirectoriesFrom [] p.names h
  · exact h

end JointProb.FileSystem
