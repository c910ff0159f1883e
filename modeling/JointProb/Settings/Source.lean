/-
  JointProb — where settings come from.

  * `Candidates` are the places where settings may be given,
    `Environment.candidates` those that environment variables name;
  * `FileSystem.settingsWith` takes the first candidate that is present, and
    reads its file in a given way; if that one cannot be used, there are no
    settings.  `FileSystem.settings` reads JSON.
-/
import JointProb.FileSystem.Basic
import JointProb.Settings.Json

namespace JointProb

variable {α : Type} [Scalar α]

/-! ## Candidates -/

/-- The places where settings may be given. -/
structure Candidates where
  /-- The file that a user asks for. -/
  explicit : Option Path
  /-- The file that the environment names. -/
  environment : Option Path
  /-- The directory of the user's own settings. -/
  userDirectory : Option Path
deriving DecidableEq, Repr

/-- The variables of an environment. -/
structure Environment where
  /-- The path of a settings file; an empty one counts as none. -/
  settingsFile : Option String
  /-- The directory of all settings of a user. -/
  configHome : Option String
  /-- The directory of the user. -/
  home : String
deriving DecidableEq, Repr

/-- The name of the directory of settings. -/
def settingsDirectory : String := "probs"

/-- The name of the file of settings. -/
def settingsFileName : String := "config.json"

/-- The candidates in an environment. -/
def Environment.candidates (env : Environment) (explicit : Option Path) : Candidates where
  explicit := explicit
  environment := (env.settingsFile.filter (· != "")).map Path.ofString
  userDirectory :=
    let configHome := (env.configHome.map Path.ofString).getD
      ((Path.ofString env.home).child ".config")
    some (configHome.child settingsDirectory)

/-- The file of the user's own settings. -/
def Candidates.userFile? (c : Candidates) : Option Path :=
  c.userDirectory.map (·.child settingsFileName)

/-! ## Sources -/

/-- Where settings have been found. -/
inductive Source where
  | explicit (file : Path)
  | environment (file : Path)
  | user (file : Path)
  | defaults
deriving DecidableEq, Repr

/-- The source that a file system and candidates have: the file asked for, the
    file that the environment names, the user's own file if it is there, or
    none of them. -/
def FileSystem.source (fs : FileSystem) (c : Candidates) : Source :=
  match c.explicit, c.environment, c.userFile?.filter fs.isFile with
  | some p, _, _ => .explicit p
  | none, some p, _ => .environment p
  | none, none, some p => .user p
  | none, none, none => .defaults

/-- The settings that texts have. -/
abbrev SettingsReader (α : Type) : Type := String → Option (Settings α)

namespace FileSystem

variable (fs : FileSystem) (read? : SettingsReader α)

/-- The settings in a file, which must make sense. -/
def settingsIn (p : Path) : Except (SettingsError α) (Settings α) :=
  match fs.readText? p with
  | none => .error .unreadable
  | some text =>
    match read? text with
    | none => .error .malformed
    | some s => s.check.map fun _ => s

/-- The settings of a source. -/
def settingsOf : Source → Except (SettingsError α) (Settings α)
  | .explicit p | .environment p | .user p => fs.settingsIn read? p
  | .defaults => .ok .default

/-- The settings that candidates give. -/
def settingsWith (c : Candidates) : Except (SettingsError α) (Settings α) :=
  fs.settingsOf read? (fs.source c)

/-- The settings that candidates give, in JSON. -/
def settings (c : Candidates) : Except (SettingsError α) (Settings α) :=
  fs.settingsWith Settings.ofJson? c

end FileSystem

end JointProb
