/-
  JointProb — which settings a session has.

  How texts are read does not matter here: what is said holds for all readers,
  that of JSON among them.

  * `Candidates.Presents` says which candidate is the first one that is there,
    `FileSystem.Reads` what settings a file gives, or why it gives none;
  * `FileSystem.settings_congr`: nothing counts but the first candidate and the
    text of its file;
  * `Settings.validBase_of_problems`: a base of logarithms that has no problem
    in settings makes sense to the engine;
  * `FileSystem.Resolved` puts this together, up to the runs of sessions that
    start with the settings; `FileSystem.resolved`: it holds for all candidates.
-/
import JointProb.Proofs.Scalar.Binary64
import JointProb.Proofs.Session
import JointProb.Proofs.Statistics

namespace JointProb

variable {α : Type} [Scalar α] {fs fs' : FileSystem} {c c' : Candidates} {source : Source}
  {read? : SettingsReader α}

/-! ## Candidates -/

/-- The first candidate that is there: one that is asked for is, whatever stands
    at its path, but the user's own settings are only if that is a file. -/
inductive Candidates.Presents (c : Candidates) (fs : FileSystem) : Source → Prop
  | explicit {p : Path} (h : c.explicit = some p) : Presents c fs (.explicit p)
  | environment {p : Path} (hexplicit : c.explicit = none) (h : c.environment = some p) :
    Presents c fs (.environment p)
  | user {p : Path} {content : ByteArray} (hexplicit : c.explicit = none)
    (henvironment : c.environment = none) (huser : c.userFile? = some p)
    (h : fs.find? p = some (.file content)) : Presents c fs (.user p)
  | defaults (hexplicit : c.explicit = none) (henvironment : c.environment = none)
    (h : ∀ p content, c.userFile? = some p → fs.find? p ≠ some (.file content)) :
    Presents c fs .defaults

/-- The file of a source. -/
def Source.file? : Source → Option Path
  | .explicit p | .environment p | .user p => some p
  | .defaults => none

theorem FileSystem.isFile_iff {p : Path} :
    fs.isFile p ↔ ∃ content, fs.find? p = some (.file content) := by
  rw [isFile]
  split <;> simp_all

theorem Candidates.Presents.source_eq (h : c.Presents fs source) : fs.source c = source := by
  cases h with
  | explicit h => rw [FileSystem.source, h]
  | environment hexplicit h => rw [FileSystem.source, hexplicit, h]
  | user hexplicit henvironment huser h =>
    have hfile : fs.isFile _ := FileSystem.isFile_iff.2 ⟨_, h⟩
    rw [FileSystem.source, hexplicit, henvironment, huser, Option.filter_some, if_pos hfile]
  | defaults hexplicit henvironment h =>
    have hnone : c.userFile?.filter fs.isFile = none := by
      rw [Option.filter_eq_none_iff]
      intro p hp hfile
      obtain ⟨content, hcontent⟩ := FileSystem.isFile_iff.1 hfile
      exact h p content hp hcontent
    rw [FileSystem.source, hexplicit, henvironment, hnone]

theorem Candidates.presents_source (c : Candidates) (fs : FileSystem) :
    c.Presents fs (fs.source c) := by
  rw [FileSystem.source]
  split
  next p _ _ h => exact .explicit h
  next p _ hexplicit h => exact .environment hexplicit h
  next p hexplicit henvironment h =>
    obtain ⟨huser, hfile⟩ := Option.filter_eq_some_iff.1 h
    obtain ⟨content, hcontent⟩ := FileSystem.isFile_iff.1 hfile
    exact .user hexplicit henvironment huser hcontent
  next hexplicit henvironment h =>
    refine .defaults hexplicit henvironment fun p content hp hcontent => ?_
    exact Option.filter_eq_none_iff.1 h p hp (FileSystem.isFile_iff.2 ⟨content, hcontent⟩)

/-- **The source is the first candidate that is there.** -/
theorem Candidates.presents_iff : c.Presents fs source ↔ fs.source c = source :=
  ⟨Presents.source_eq, fun h => h ▸ c.presents_source fs⟩

/-! ## Files -/

/-- What settings a file gives, or why it gives none. -/
inductive FileSystem.Reads (fs : FileSystem) (read? : SettingsReader α) (p : Path) :
    Except (SettingsError α) (Settings α) → Prop
  | unreadable (h : fs.readText? p = none) : Reads fs read? p (.error .unreadable)
  | malformed {text : String} (htext : fs.readText? p = some text) (h : read? text = none) :
    Reads fs read? p (.error .malformed)
  | invalid {text : String} {s : Settings α} (htext : fs.readText? p = some text)
    (hs : read? text = some s) (h : s.problems ≠ []) :
    Reads fs read? p (.error (.invalid s.problems))
  | valid {text : String} {s : Settings α} (htext : fs.readText? p = some text)
    (hs : read? text = some s) (h : s.problems = []) : Reads fs read? p (.ok s)

theorem Settings.check_of_nil {s : Settings α} (h : s.problems = []) : s.check = .ok () := by
  rw [check, h]
  rfl

theorem Settings.check_of_ne_nil {s : Settings α} (h : s.problems ≠ []) :
    s.check = .error (.invalid s.problems) := by
  rw [check, if_neg fun hempty => h (List.isEmpty_iff.1 hempty)]

namespace FileSystem

variable {p : Path} {r : Except (SettingsError α) (Settings α)}

theorem Reads.settingsIn_eq (h : fs.Reads read? p r) : fs.settingsIn read? p = r := by
  cases h with
  | unreadable h => rw [settingsIn, h]
  | malformed htext h => simp only [settingsIn, htext, h]
  | invalid htext hs h =>
    simp only [settingsIn, htext, hs, Settings.check_of_ne_nil h, Except.map]
  | valid htext hs h => simp only [settingsIn, htext, hs, Settings.check_of_nil h, Except.map]

theorem exists_reads (fs : FileSystem) (read? : SettingsReader α) (p : Path) :
    ∃ r, fs.Reads read? p r := by
  cases htext : fs.readText? p with
  | none => exact ⟨_, .unreadable htext⟩
  | some text =>
    cases hs : read? text with
    | none => exact ⟨_, .malformed htext hs⟩
    | some s =>
      by_cases h : s.problems = []
      · exact ⟨_, .valid htext hs h⟩
      · exact ⟨_, .invalid htext hs h⟩

/-- **What the settings in a file are.** -/
theorem settingsIn_eq_iff : fs.settingsIn read? p = r ↔ fs.Reads read? p r := by
  refine ⟨?_, Reads.settingsIn_eq⟩
  rintro rfl
  obtain ⟨r, hr⟩ := exists_reads fs read? p
  rwa [hr.settingsIn_eq]

/-! ## Settings -/

theorem settings_eq_settingsIn (h : c.Presents fs source) (hp : source.file? = some p) :
    fs.settingsWith read? c = fs.settingsIn read? p := by
  rw [settingsWith, h.source_eq]
  cases source <;> cases hp <;> rfl

theorem settings_eq_default (h : c.Presents fs .defaults) :
    fs.settingsWith read? c = .ok .default := by
  rw [settingsWith, h.source_eq]
  rfl

/-- **Nothing counts but the first candidate and the text of its file**: other
    candidates, and other files, may be what they want. -/
theorem settings_congr (h : c.Presents fs source) (h' : c'.Presents fs' source)
    (hfile : ∀ p, source.file? = some p → fs'.readText? p = fs.readText? p) :
    fs'.settingsWith read? c' = fs.settingsWith read? c := by
  cases hp : source.file? with
  | none =>
    obtain rfl : source = .defaults := by cases source <;> first | rfl | cases hp
    rw [settings_eq_default h, settings_eq_default h']
  | some p =>
    rw [settings_eq_settingsIn h hp, settings_eq_settingsIn h' hp, settingsIn, settingsIn,
      hfile p hp]

end FileSystem

/-! ## Bases of logarithms -/

theorem Settings.positive_of_problems {s : Settings α} (h : s.problems = []) :
    (positive s.entropyBase && s.entropyBase != 1) = true := by
  by_contra hbad
  have hmem : Problem.invalidBase s.entropyBase ∈ s.problems := by
    simp only [problems, List.mem_append, if_neg hbad, List.mem_singleton]
    exact Or.inl (Or.inr trivial)
  rw [h] at hmem
  cases hmem

/-- **A base without a problem makes sense**: the check of settings and that of
    the engine agree, also on values that are not numbers. -/
theorem Settings.validBase_of_problems {s : Settings Float} (h : s.problems = []) :
    Information.validBase s.entropyBase := by
  have hbase := positive_of_problems h
  rw [Bool.and_eq_true, positive, Bool.and_eq_true, Bool.not_eq_true', decide_eq_false_iff_not]
    at hbase
  obtain ⟨⟨hfinite, hpos⟩, hone⟩ := hbase
  rw [Information.validBase, Bool.and_eq_true, Bool.and_eq_true, decide_eq_true_eq]
  exact ⟨⟨hfinite, Binary64.pos_of_not_le hfinite hpos⟩, hone⟩

theorem Settings.problems_default : (Settings.default : Settings Float).problems = [] := by
  decide +kernel

/-! ## Sessions -/

/-- What is to be known of the settings that candidates give. -/
structure FileSystem.Resolved (fs : FileSystem) (read? : SettingsReader Float) (c : Candidates) :
    Prop where
  /-- The source is the first candidate that is there. -/
  presents_iff {source : Source} : c.Presents fs source ↔ fs.source c = source
  /-- Nothing counts but that candidate and the text of its file. -/
  settings_congr {fs' : FileSystem} {c' : Candidates} {source : Source}
    (h : c.Presents fs source) (h' : c'.Presents fs' source)
    (hfile : ∀ p, source.file? = some p → fs'.readText? p = fs.readText? p) :
    fs'.settingsWith read? c' = fs.settingsWith read? c
  /-- If it has a file, the settings are those in the file, or there are none. -/
  settings_eq_iff {source : Source} {p : Path} (h : c.Presents fs source)
    (hp : source.file? = some p) {r : Except (SettingsError Float) (Settings Float)} :
    fs.settingsWith read? c = r ↔ fs.Reads read? p r
  /-- If there is no candidate, they are the default ones. -/
  settings_eq_default (h : c.Presents fs .defaults) :
    fs.settingsWith read? c = .ok .default
  /-- Settings pass the check. -/
  check_eq_ok {settings : Settings Float} (h : fs.settingsWith read? c = .ok settings) :
    settings.check = .ok ()
  /-- In no run of a session that starts with them, on whatever files, a base is
      complained about. -/
  notBase_of_steps {s : Session Float} (h : Session.ofCandidatesWith read? fs c = .ok s)
    {files : FileSystem} {ops : List (Operation Float)} {x : Step Float}
    (hx : x ∈ s.steps files ops) {e : Failure Float} (he : x.outcome.result = .error e) : e.NotBase

theorem FileSystem.problems_eq_nil {read? : SettingsReader Float} {settings : Settings Float}
    (h : fs.settingsWith read? c = .ok settings) : settings.problems = [] := by
  have hsource := c.presents_source fs
  cases hp : (fs.source c).file? with
  | none =>
    have hdefaults : fs.source c = .defaults := by
      cases hs : fs.source c <;> first | rfl | (rw [hs] at hp; cases hp)
    rw [hdefaults] at hsource
    rw [settings_eq_default hsource] at h
    cases h
    exact Settings.problems_default
  | some p =>
    rw [settings_eq_settingsIn hsource hp, settingsIn_eq_iff] at h
    cases h with
    | valid _ _ h => exact h

/-- The settings that a session starts with stay in all of its runs. -/
theorem Session.exists_perform {settings : Settings α} [NaturalLog α] [DecimalText α]
    {files : FileSystem} {ops : List (Operation α)} {x : Step α}
    (hx : x ∈ (start settings).steps files ops) : ∃ s : Session α,
      s.settings = settings ∧ x.outcome = s.perform x.files x.operation := by
  obtain ⟨before, after, hsplit⟩ := List.append_of_mem hx
  obtain ⟨⟨ops', rfl⟩, houtcome⟩ := of_steps_eq_append _ _ hsplit
  rw [after_eq_replay] at houtcome
  exact ⟨_, settings_replay settings _, houtcome⟩

/-- **Settings come from the first candidate that is there**, or there are none;
    and those that there are make sense to the engine. -/
theorem FileSystem.resolved (fs : FileSystem) (read? : SettingsReader Float) (c : Candidates) :
    fs.Resolved read? c where
  presents_iff := Candidates.presents_iff
  settings_congr := settings_congr
  settings_eq_iff h hp r := by rw [settings_eq_settingsIn h hp, settingsIn_eq_iff]
  settings_eq_default := settings_eq_default
  check_eq_ok h := Settings.check_of_nil (problems_eq_nil h)
  notBase_of_steps {s} h files ops x hx e he := by
    rw [Session.ofCandidatesWith, map_eq_ok] at h
    obtain ⟨settings, h, rfl⟩ := h
    have hbase := Settings.validBase_of_problems (problems_eq_nil (mapError_eq_ok.1 h))
    obtain ⟨s, rfl, houtcome⟩ := Session.exists_perform hx
    have hends := s.ends_perform hbase x.files x.operation
    rwa [← houtcome, he] at hends

/-- A file that the environment names is not passed over when it is not there,
    even though the user's own file is. -/
example : let fs : FileSystem := ⟨[(["probs"], .directory),
      (["probs", "config.json"], .file "\x7b\x7d".toUTF8)]⟩
    let own : Candidates := ⟨none, none, some (.ofString "/probs")⟩
    let named : Candidates := { own with environment := some (.ofString "/env.json") }
    fs.source own = .user ((Path.ofString "/probs").child "config.json") ∧
      fs.settings named = (.error .unreadable : Except (SettingsError Float) _) := by
  decide +kernel

end JointProb
