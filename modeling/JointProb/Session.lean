/-
  JointProb — sessions.

  A session has settings, which never change, and at most one distribution at
  a time, which questions are about.

  * `Distribution.answer` answers a question under settings;
  * `Session.perform` does an operation, with its result, the session and the
    file system afterwards.
-/
import JointProb.Query.Evaluate
import JointProb.Sampler
import JointProb.Settings.Source
import JointProb.Spec.File
import JointProb.Statistics

namespace JointProb

variable {α : Type}

/-! ## Questions -/

/-- A question about a distribution. -/
inductive Question where
  | query (text : String)
  | marginal (vars : List Nat)
  /-- The entropy of variables, or of all of them. -/
  | entropy (vars : Option (List Nat))
  | conditionalEntropy (targets givens : List Nat)
  | mutualInformation (a b : List Nat)
  | oddsRatio (exposure outcome : Nat)
  | relativeRisk (exposure outcome : Nat)
  /-- Draws, one for each random word. -/
  | sample (words : List Nat)
deriving DecidableEq, Repr

/-- What an operation gives. -/
inductive Answer (α : Type) where
  | distribution (d : Distribution α)
  | written (text : String)
  | value (v : Value α)
  | marginal (m : Marginal α)
  | information (x : α)
  | association (a : Association α)
  | samples (assignments : List (List Nat))

/-- The answer to a question under settings. -/
def Distribution.answer [Scalar α] [NaturalLog α] (d : Distribution α) (settings : Settings α) :
    Question → Except (Failure α) (Answer α)
  | .query text => ((d.askWith settings.tolerances text).mapError .query).map .value
  | .marginal vars => ((d.marginal vars).mapError .stats).map .marginal
  | .entropy vars => ((d.entropy settings.entropyBase vars).mapError .stats).map .information
  | .conditionalEntropy targets givens =>
    ((d.conditionalEntropy settings.entropyBase targets givens).mapError .stats).map .information
  | .mutualInformation a b =>
    ((d.mutualInformation settings.tolerances.mutualInformation settings.entropyBase a b).mapError
      .stats).map .information
  | .oddsRatio exposure outcome =>
    ((d.oddsRatio exposure outcome).mapError .stats).map .association
  | .relativeRisk exposure outcome =>
    ((d.relativeRisk exposure outcome).mapError .stats).map .association
  | .sample words => .ok (.samples (d.sample words))

/-! ## Sessions -/

/-- Settings and the current distribution. -/
structure Session (α : Type) where
  settings : Settings α
  current : Option (Distribution α)

/-- What can be done in a session. -/
inductive Operation (α : Type) where
  | load (text : String) (format : Format)
  | loadFile (path : Path)
  | replace (d : Distribution α)
  /-- Read a file under the default settings, for a look only. -/
  | inspectFile (path : Path)
  | save (path : Path)
  | ask (question : Question)

/-- The result of an operation, with the session and the file system
    afterwards. -/
structure Outcome (α : Type) where
  result : Except (Failure α) (Answer α)
  session : Session α
  files : FileSystem

namespace Session

/-- A session without a distribution. -/
def start (settings : Settings α) : Session α := ⟨settings, none⟩

/-- A session under the settings that candidates give, for a reader of them. -/
def ofCandidatesWith [Scalar α] (read? : SettingsReader α) (fs : FileSystem) (c : Candidates) :
    Except (Failure α) (Session α) :=
  ((fs.settingsWith read? c).mapError .settings).map start

/-- A session under the settings that candidates give, in JSON. -/
def ofCandidates [Scalar α] (fs : FileSystem) (c : Candidates) : Except (Failure α) (Session α) :=
  ofCandidatesWith Settings.ofJson? fs c

variable (s : Session α)

/-- The session with a distribution that has been built, or the same one. -/
def adopt : Except (Failure α) (Distribution α) → Session α
  | .ok d => { s with current := some d }
  | .error _ => s

/-- The current distribution. -/
def distribution : Except (Failure α) (Distribution α) :=
  match s.current with
  | some d => .ok d
  | none => .error .noDistribution

/-- Do an operation. -/
def perform [Scalar α] [NaturalLog α] [DecimalText α] (fs : FileSystem) : Operation α → Outcome α
  | .load text format =>
    let built := (Distribution.ofText s.settings none format text).mapError Failure.spec
    ⟨built.map .distribution, s.adopt built, fs⟩
  | .loadFile p =>
    let built := Distribution.ofFile s.settings fs p
    ⟨built.map .distribution, s.adopt built, fs⟩
  | .replace d => ⟨.ok (.distribution d), s.adopt (.ok d), fs⟩
  | .inspectFile p => ⟨(Distribution.ofFile .default fs p).map .distribution, s, fs⟩
  | .save p =>
    match s.distribution with
    | .error e => ⟨.error e, s, fs⟩
    | .ok d =>
      let (result, fs) := d.save fs p
      ⟨result.map .written, s, fs⟩
  | .ask question => ⟨s.distribution.bind (·.answer s.settings question), s, fs⟩

end Session

end JointProb
