/-
  JointProb — replacing a file by way of another one.

  The content is written beside the target, under another extension, and moves
  to the target at the end.

  * `FileSystem.HasRoom`: a path leads to a place where a file can stand;
  * `FileSystem.locate?_withExtension_ne`: the two files are different ones;
  * `FileSystem.Replaced` and `FileSystem.Unreplaced` say what a replacement
    leaves behind when it is done and when it fails;
  * `FileSystem.replaced_of_replaceFile` and
    `FileSystem.unreplaced_of_replaceFile`: that holds of each replacement.

  No file changes but these two.  The one beside the target is in use whatever
  stood there: an older file of its name is lost, and what was written stays
  there if it cannot move.
-/
import JointProb.Proofs.FileSystem.Basic
import JointProb.Proofs.FileSystem.Path

namespace JointProb.FileSystem

variable {fs fs' : FileSystem} {p q : Path} {content : ByteArray} {place : List String}

/-! ## Room for a file -/

/-- A path leads to a place without a directory. -/
def HasRoom (fs : FileSystem) (p : Path) : Prop :=
  ∃ place, fs.locate? p = some place ∧ fs.isDirectory place = false

theorem hasRoom_congr (h : ∀ place, fs'.isDirectory place = fs.isDirectory place) :
    fs'.HasRoom p ↔ fs.HasRoom p := by
  simp only [HasRoom, locate?_congr h, h]

theorem write?_of_locate (hplace : fs.locate? p = some place) (h : fs.isDirectory place = false)
    (content : ByteArray) : fs.write? p content = some (fs.insert place (.file content)) := by
  simp only [write?, hplace, h, Bool.false_eq_true, if_false]

theorem write?_of_not_hasRoom (h : ¬ fs.HasRoom p) (content : ByteArray) :
    fs.write? p content = none := by
  rw [write?]
  split
  · rfl
  · next place hplace =>
    rw [if_pos]
    by_contra hdirectory
    exact h ⟨place, hplace, Bool.eq_false_of_not_eq_true hdirectory⟩

/-- A file that was just written moves as if it were written elsewhere. -/
theorem move?_insert (hplace : fs.locate? q = some place) (h : fs.isDirectory place = false)
    (content : ByteArray) (p : Path) : (fs.insert place (.file content)).move? q p =
      ((fs.insert place (.file content)).erase place).write? p content := by
  have hlocate := locate?_congr (isDirectory_insert h content) q
  rw [move?, find?, hlocate, hplace, Option.bind_some, entry?_insert h, if_pos rfl]

/-- A file that was written and moves away leaves all directories. -/
theorem isDirectory_moved (h : fs.isDirectory place = false) (content : ByteArray)
    (other : List String) : ((fs.insert place (.file content)).erase place).isDirectory other =
      fs.isDirectory other := by
  rw [isDirectory_erase (by rwa [isDirectory_insert h]), isDirectory_insert h]

/-- It leaves nothing else. -/
theorem entry?_moved (h : fs.isDirectory place = false) (content : ByteArray)
    (other : List String) : entry? ((fs.insert place (.file content)).erase place) other =
      if other = place then none else fs.entry? other := by
  rw [entry?_erase (by rwa [isDirectory_insert h]), entry?_insert h]
  split_ifs <;> rfl

theorem follow?_of_locate? (h : fs.locate? p = some place) :
    fs.follow? [] p.names = some place := by
  rw [locate?] at h
  split_ifs at h
  exact (Option.filter_eq_some_iff.1 h).1

/-- **Another extension leads to another file**, if there is room for both. -/
theorem locate?_withExtension_ne {extension : String} (hdot : '.' ∈ extension.toList)
    {there : List String} (hplace : fs.locate? p = some place)
    (hroom : fs.isDirectory place = false)
    (hthere : fs.locate? (p.withExtension extension) = some there)
    (hroom' : fs.isDirectory there = false) : there ≠ place := by
  have hplace := follow?_of_locate? hplace
  have hthere := follow?_of_locate? hthere
  obtain ⟨hup, -⟩ | ⟨name, other, hname, hne, hnames, hnames'⟩ := p.withExtension_cases hdot
  · exact absurd (isDirectory_of_follow_up hup hplace) (by simp [hroom])
  by_cases hother : other = ".."
  · have hup : (p.withExtension extension).names.getLast?.all (· == "..") := by
      simp [hnames', hother]
    exact absurd (isDirectory_of_follow_up hup hthere) (by simp [hroom'])
  · rw [hnames] at hplace
    rw [hnames'] at hthere
    exact ne_of_follow_concat hne hname hother hplace hthere

/-! ## What a replacement leaves behind -/

/-- What a replacement has done: the file at the path holds the content, nothing
    stands at the other path, and all other files are as before. -/
structure Replaced (fs : FileSystem) (p q : Path) (content : ByteArray) (fs' : FileSystem) :
    Prop where
  found : fs'.find? p = some (.file content)
  gone : fs'.find? q = none
  kept : ∀ place, fs'.locate? p ≠ some place → fs'.locate? q ≠ some place →
    fs'.content? place = fs.content? place
  directories : ∀ place, fs.isDirectory place → fs'.isDirectory place

/-- What a failed replacement has done: all files are as before, but the content
    may stand at the other path if there is no room at the target.  With the
    directory there, and room for both files, there is no failure. -/
structure Unreplaced (fs : FileSystem) (p q : Path) (content : ByteArray) (fs' : FileSystem) :
    Prop where
  kept : ∀ place, fs'.locate? q ≠ some place → fs'.content? place = fs.content? place
  left : ∀ place, fs'.locate? q = some place → fs'.content? place = fs.content? place ∨
    fs'.content? place = some content ∧ ¬ fs'.HasRoom p
  obstacle : fs'.find? p.parent = some .directory → fs'.HasRoom q → ¬ fs'.HasRoom p
  directories : ∀ place, fs.isDirectory place → fs'.isDirectory place

/-- How far a replacement gets. -/
theorem replaceFile_cases (extension : String) (content : ByteArray) {made : Bool}
    {ready : FileSystem} (hmade : fs.makeDirectories p.parent = (made, ready)) :
    ((made = false ∨ ¬ ready.HasRoom (p.withExtension extension)) ∧
      fs.replaceFile p extension content = (false, ready)) ∨
    ∃ there, ready.locate? (p.withExtension extension) = some there ∧
      ready.isDirectory there = false ∧
      ((¬ ready.HasRoom p ∧
        fs.replaceFile p extension content = (false, ready.insert there (.file content))) ∨
      ∃ place, ready.locate? p = some place ∧ ready.isDirectory place = false ∧
        fs.replaceFile p extension content =
          (true, ((ready.insert there (.file content)).erase there).insert place
            (.file content))) := by
  simp only [replaceFile, hmade]
  cases made with
  | false => exact .inl ⟨.inl rfl, rfl⟩
  | true =>
    by_cases hroom : ready.HasRoom (p.withExtension extension)
    · obtain ⟨there, hthere, hdirectory⟩ := hroom
      have hsame := isDirectory_moved hdirectory content
      refine .inr ⟨there, hthere, hdirectory, ?_⟩
      simp only [write?_of_locate hthere hdirectory, move?_insert hthere hdirectory]
      by_cases hroom : ready.HasRoom p
      · obtain ⟨place, hplace, hdirectory'⟩ := hroom
        refine .inr ⟨place, hplace, hdirectory', ?_⟩
        rw [write?_of_locate (by rwa [locate?_congr hsame]) (by rwa [hsame])]
      · refine .inl ⟨hroom, ?_⟩
        rw [write?_of_not_hasRoom (by rwa [hasRoom_congr hsame])]
    · refine .inl ⟨.inr hroom, ?_⟩
      simp only [write?_of_not_hasRoom hroom]

section

variable {extension : String}

/-- **A replacement changes its target and the place beside it, and nothing
    else.** -/
theorem replaced_of_replaceFile (hdot : '.' ∈ extension.toList)
    (h : fs.replaceFile p extension content = (true, fs')) :
    fs.Replaced p (p.withExtension extension) content fs' := by
  cases hmade : fs.makeDirectories p.parent with
  | mk made ready =>
    have hready (other : List String) : ready.content? other = fs.content? other := by
      simpa [hmade] using content?_makeDirectories fs p.parent other
    obtain ⟨-, hfile⟩ | ⟨there, hthere, hdirectory, ⟨-, hfile⟩ | ⟨place, hplace, hdirectory', hfile⟩⟩ :=
      replaceFile_cases extension content hmade
    · cases hfile.symm.trans h
    · cases hfile.symm.trans h
    cases hfile.symm.trans h
    have hne := locate?_withExtension_ne hdot hplace hdirectory' hthere hdirectory
    have hmoved := isDirectory_moved hdirectory content
    have hsame := isDirectory_insert ((hmoved place).trans hdirectory') content
    have hlocate := locate?_congr fun other => (hsame other).trans (hmoved other)
    have hentry (other : List String) := entry?_insert ((hmoved place).trans hdirectory')
      (.file content) other
    refine ⟨?_, ?_, fun other hother hother' => ?_, fun other hother => ?_⟩
    · rw [find?, hlocate, hplace, Option.bind_some, hentry, if_pos rfl]
    · rw [find?, hlocate, hthere, Option.bind_some, hentry, if_neg hne,
        entry?_moved hdirectory, if_pos rfl]
    · rw [hlocate] at hother hother'
      have hother : other ≠ place := fun heq => hother (heq ▸ hplace)
      have hother' : other ≠ there := fun heq => hother' (heq ▸ hthere)
      rw [content?, hentry, if_neg hother, entry?_moved hdirectory, if_neg hother', ← content?,
        hready]
    · rw [hsame, hmoved]
      simpa [hmade] using isDirectory_makeDirectories p.parent hother

/-- **A failed replacement changes at most the place beside its target.** -/
theorem unreplaced_of_replaceFile (h : fs.replaceFile p extension content = (false, fs')) :
    fs.Unreplaced p (p.withExtension extension) content fs' := by
  cases hmade : fs.makeDirectories p.parent with
  | mk made ready =>
    have hready (other : List String) : ready.content? other = fs.content? other := by
      simpa [hmade] using content?_makeDirectories fs p.parent other
    have hstays {other : List String} (hother : fs.isDirectory other) :
        ready.isDirectory other := by
      simpa [hmade] using isDirectory_makeDirectories p.parent hother
    obtain ⟨hobstacle, hfile⟩ | ⟨there, hthere, hdirectory, ⟨hroom, hfile⟩ | ⟨place, -, -, hfile⟩⟩ :=
      replaceFile_cases extension content hmade
    · cases hfile.symm.trans h
      refine ⟨fun place _ => hready place, fun place _ => .inl (hready place), fun hfind hroom => ?_,
        fun place => hstays⟩
      have hdone := (makeDirectories_iff fs p.parent).2 (by rwa [hmade])
      rw [hmade] at hdone
      obtain hmade | hno := hobstacle
      · exact absurd hdone (by simp [hmade])
      · exact absurd hroom hno
    · cases hfile.symm.trans h
      have hsame := isDirectory_insert hdirectory content
      have hlocate := locate?_congr hsame
      have hnoRoom : ¬ (ready.insert there (.file content)).HasRoom p := by
        rwa [hasRoom_congr hsame]
      refine ⟨fun other hother => ?_, fun other hother => .inr ⟨?_, hnoRoom⟩, fun _ _ => hnoRoom,
        fun other hother => (hsame other).trans (hstays hother)⟩
      · rw [hlocate] at hother
        have hne : other ≠ there := fun heq => hother (heq ▸ hthere)
        rw [content?_insert hdirectory, if_neg hne, hready]
      · rw [hlocate, hthere] at hother
        cases hother
        rw [content?_insert hdirectory, if_pos rfl]
    · cases hfile.symm.trans h

end

end JointProb.FileSystem
