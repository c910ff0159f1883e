/-
  JointProb — runs of sessions.

  A run is any list of operations, done one after the other on a file system
  that they may change.  All that a session remembers of it is the last load
  that gave a distribution.

  * `Session.steps` are the operations of a run with what came of them, and
    `Session.after` is the session at its end;
  * `Operation.built?` is what an operation builds of its text or its file,
    whatever the session has;
  * `Session.lastLoad?` is the last step that loaded a distribution, and
    `Session.replay` the new session in which only that is done again;
  * `Session.session_perform`: what one operation does to a session, and
    `Session.after_steps`: a run leaves the session that its last load leaves;
  * `Session.Follows` says what this means for every step of a run;
    `Session.follows`: so it is for all runs.
-/
import JointProb.Session

namespace JointProb

variable {α : Type}

/-- An operation of a run: the file system that it is done on, and what comes
    of it. -/
structure Step (α : Type) where
  operation : Operation α
  files : FileSystem
  outcome : Outcome α

/-- Whether an operation is to give the session a distribution. -/
def Operation.isLoad : Operation α → Bool
  | .load .. | .loadFile _ | .replace _ => true
  | .inspectFile _ | .save _ | .ask _ => false

/-- Whether an operation is about the distribution of the session. -/
def Operation.isReading : Operation α → Bool
  | .save _ | .ask _ => true
  | .load .. | .loadFile _ | .replace _ | .inspectFile _ => false

/-- What an operation builds, if it is about another distribution than that of
    the session: of a text or a file under the settings, for a look under the
    default ones. -/
def Operation.built? [Scalar α] (settings : Settings α) (fs : FileSystem) :
    Operation α → Option (Except (Failure α) (Distribution α))
  | .load text format => some ((Distribution.ofText settings none format text).mapError .spec)
  | .loadFile p => some (Distribution.ofFile settings fs p)
  | .replace d => some (.ok d)
  | .inspectFile p => some (Distribution.ofFile .default fs p)
  | .save _ | .ask _ => none

/-- The distribution in an answer. -/
def Answer.distribution? : Answer α → Option (Distribution α)
  | .distribution d => some d
  | _ => none

/-- The distribution that a step gives the session. -/
def Step.loaded? (x : Step α) : Option (Distribution α) :=
  if x.operation.isLoad then x.outcome.result.toOption.bind Answer.distribution? else none

theorem Step.result_of_loaded? {x : Step α} {d : Distribution α} (h : x.loaded? = some d) :
    x.outcome.result = .ok (.distribution d) := by
  rw [loaded?] at h
  split at h
  · cases hresult : x.outcome.result with
    | error e =>
      rw [hresult] at h
      cases h
    | ok answer =>
      rw [hresult] at h
      cases answer <;> cases h
      rfl
  · cases h

namespace Session

/-- The session after steps. -/
def after (s : Session α) (xs : List (Step α)) : Session α :=
  (xs.getLast?.map fun x => x.outcome.session).getD s

/-- The last step that loaded a distribution. -/
def lastLoad? (xs : List (Step α)) : Option (Step α) :=
  (xs.filter fun x => x.loaded?.isSome).getLast?

theorem after_cons (s : Session α) (x : Step α) (xs : List (Step α)) :
    s.after (x :: xs) = x.outcome.session.after xs := by
  rw [after, List.getLast?_cons]
  cases h : xs.getLast? <;> simp [after, h]

/-- A step that loads is the last one to do so unless a later one does. -/
theorem lastLoad?_cons (x : Step α) (xs : List (Step α)) :
    lastLoad? (x :: xs) = (lastLoad? xs).or (if x.loaded?.isSome then some x else none) := by
  rw [lastLoad?, List.filter_cons, lastLoad?]
  cases x.loaded?.isSome with
  | true =>
    rw [if_pos rfl, if_pos rfl, List.getLast?_cons]
    cases (xs.filter fun x => x.loaded?.isSome).getLast? <;> rfl
  | false =>
    rw [if_neg Bool.false_ne_true, if_neg Bool.false_ne_true, Option.or_none]

theorem of_lastLoad? {xs : List (Step α)} {x : Step α} (h : lastLoad? xs = some x) :
    x ∈ xs ∧ ∃ d, x.loaded? = some d := by
  obtain ⟨hmem, hloaded⟩ := List.mem_filter.1 (List.mem_of_getLast? h)
  exact ⟨hmem, Option.isSome_iff_exists.1 hloaded⟩

variable [Scalar α] [NaturalLog α] [DecimalText α]

/-- The steps of a run. -/
def steps (s : Session α) (fs : FileSystem) : List (Operation α) → List (Step α)
  | [] => []
  | op :: ops =>
    let outcome := s.perform fs op
    ⟨op, fs, outcome⟩ :: steps outcome.session outcome.files ops

/-- A new session in which at most one operation is done, on the files that it
    was done on before. -/
def replay (settings : Settings α) : Option (Step α) → Session α
  | none => start settings
  | some x => ((start settings).perform x.files x.operation).session

/-! ## One step -/

variable (s : Session α) (fs : FileSystem)

/-- **What an operation does to a session**: it gives it the distribution that
    it loads, and changes nothing else. -/
theorem session_perform (op : Operation α) : (s.perform fs op).session =
    ⟨s.settings, (Step.mk op fs (s.perform fs op)).loaded?.or s.current⟩ := by
  cases op with
  | load text format =>
    simp only [perform, Step.loaded?]
    cases Distribution.ofText s.settings none format text <;> rfl
  | loadFile p =>
    simp only [perform, Step.loaded?]
    cases Distribution.ofFile s.settings fs p <;> rfl
  | save p =>
    rw [perform]
    cases s.distribution <;> rfl
  | replace | inspectFile | ask => rfl

/-- What an operation loads does not depend on the distribution that the
    session has. -/
theorem loaded?_eq {x : Step α} (h : x.outcome = s.perform x.files x.operation) : x.loaded? =
    (Step.mk x.operation x.files ((start s.settings).perform x.files x.operation)).loaded? := by
  obtain ⟨op, files, outcome⟩ := x
  dsimp only at h
  subst h
  cases op <;> rfl

/-- What an operation builds is its result. -/
theorem perform_of_built? {op : Operation α} {built : Except (Failure α) (Distribution α)}
    (h : op.built? s.settings fs = some built) :
    (s.perform fs op).result = built.map .distribution := by
  cases op with
  | load | loadFile | replace | inspectFile =>
    cases h
    rfl
  | save | ask => cases h

/-- Without a distribution there is nothing to ask about or to save. -/
theorem perform_of_isReading (hnone : s.current = none) {op : Operation α} (h : op.isReading) :
    (s.perform fs op).result = .error .noDistribution := by
  have hdistribution : s.distribution = .error .noDistribution := by
    rw [Session.distribution, hnone]
  cases op with
  | load | loadFile | replace | inspectFile => cases h
  | save p => rw [perform, hdistribution]
  | ask question =>
    rw [perform, hdistribution]
    rfl

variable {fs} in
/-- What a load leaves is what it leaves of a new session. -/
theorem session_perform_eq_replay {op : Operation α} {d : Distribution α}
    (h : (Step.mk op fs (s.perform fs op)).loaded? = some d) :
    (s.perform fs op).session = replay s.settings (some ⟨op, fs, s.perform fs op⟩) := by
  have hnew := s.loaded?_eq (x := ⟨op, fs, s.perform fs op⟩) rfl
  rw [h] at hnew
  rw [replay, session_perform, session_perform, h, ← hnew]
  rfl

/-! ## Runs -/

/-- **A run leaves the session that its last load leaves**, or the one that it
    found. -/
theorem after_steps (ops : List (Operation α)) : s.after (s.steps fs ops) =
    (lastLoad? (s.steps fs ops)).elim s fun x => replay s.settings (some x) := by
  induction ops generalizing s fs with
  | nil => rfl
  | cons op ops ih =>
    have hsettings : (s.perform fs op).session.settings = s.settings := by rw [session_perform]
    rw [steps, after_cons, ih, lastLoad?_cons]
    dsimp only
    cases lastLoad? ((s.perform fs op).session.steps (s.perform fs op).files ops) with
    | some x =>
      rw [hsettings]
      rfl
    | none =>
      -- no later step loads anything, so it is up to this one
      cases hloaded : (Step.mk op fs (s.perform fs op)).loaded? with
      | some d => exact s.session_perform_eq_replay hloaded
      | none =>
        rw [Option.elim_none, session_perform, hloaded]
        rfl

/-- In a run every step is done in the session that the steps before it
    leave, and those are a run as well. -/
theorem of_steps_eq_append {ops : List (Operation α)} {before after : List (Step α)} {x : Step α}
    (h : s.steps fs ops = before ++ x :: after) :
    (∃ ops', s.steps fs ops' = before) ∧
      x.outcome = (s.after before).perform x.files x.operation := by
  induction before generalizing s fs ops with
  | nil =>
    cases ops with
    | nil => cases h
    | cons op ops =>
      obtain ⟨rfl, -⟩ := List.cons.inj h
      exact ⟨⟨[], rfl⟩, rfl⟩
  | cons y before ih =>
    cases ops with
    | nil => cases h
    | cons op ops =>
      obtain ⟨rfl, htail⟩ := List.cons.inj h
      obtain ⟨⟨ops', hops'⟩, houtcome⟩ := ih _ _ htail
      exact ⟨⟨op :: ops', by rw [steps, hops']⟩, by rw [after_cons, houtcome]⟩

/-- A run in a new session leaves what its last load leaves. -/
theorem after_eq_replay (settings : Settings α) (fs : FileSystem) (ops : List (Operation α)) :
    (start settings).after ((start settings).steps fs ops) =
      replay settings (lastLoad? ((start settings).steps fs ops)) := by
  rw [after_steps]
  cases lastLoad? ((start settings).steps fs ops) <;> rfl

theorem settings_replay (settings : Settings α) (load : Option (Step α)) :
    (replay settings load).settings = settings := by
  cases load with
  | none => rfl
  | some x => rw [replay, session_perform, start]

section

variable {settings : Settings α} {fs : FileSystem} {ops : List (Operation α)}
  {before after : List (Step α)} {x : Step α}

/-- A step does what it does after the last load alone. -/
theorem outcome_eq_replay (h : (start settings).steps fs ops = before ++ x :: after) :
    x.outcome = (replay settings (lastLoad? before)).perform x.files x.operation := by
  obtain ⟨⟨ops', rfl⟩, hx⟩ := of_steps_eq_append _ _ h
  rw [hx, after_eq_replay]

/-- The last load gives a new session the same distribution. -/
theorem loaded_replay (h : lastLoad? ((start settings).steps fs ops) = some x) :
    ∃ d, x.loaded? = some d ∧
      ((start settings).perform x.files x.operation).result = .ok (.distribution d) ∧
        (replay settings (some x)).current = some d := by
  obtain ⟨hmem, d, hd⟩ := of_lastLoad? h
  obtain ⟨before, after, hsplit⟩ := List.append_of_mem hmem
  have hnew := loaded?_eq _ (outcome_eq_replay hsplit)
  rw [settings_replay, hd] at hnew
  refine ⟨d, hd, Step.result_of_loaded? hnew.symm, ?_⟩
  rw [replay, session_perform, ← hnew]
  rfl

theorem current_replay : (replay settings (lastLoad? ((start settings).steps fs ops))).current =
    (lastLoad? ((start settings).steps fs ops)).bind Step.loaded? := by
  cases hlast : lastLoad? ((start settings).steps fs ops) with
  | none => rfl
  | some x =>
    obtain ⟨d, hd, -, hcurrent⟩ := loaded_replay hlast
    rw [hcurrent, Option.bind_some, hd]

end

/-- What can be said of the steps of a run in a new session. -/
structure Follows (settings : Settings α) (xs : List (Step α)) : Prop where
  /-- The settings stay as they are. -/
  settings_eq {x : Step α} (h : x ∈ xs) : x.outcome.session.settings = settings
  /-- What is loaded, or read for a look, is what the text or the file describes,
      or the fault of it. -/
  result_eq {x : Step α} (h : x ∈ xs) {built : Except (Failure α) (Distribution α)}
    (hbuilt : x.operation.built? settings x.files = some built) :
    x.outcome.result = built.map .distribution
  /-- The distribution is that of the last load that gave one. -/
  current_eq : ((start settings).after xs).current = (lastLoad? xs).bind Step.loaded?
  /-- That load gives a new session the same distribution. -/
  loaded_replay {x : Step α} (h : lastLoad? xs = some x) : ∃ d, x.loaded? = some d ∧
    ((start settings).perform x.files x.operation).result = .ok (.distribution d) ∧
      (replay settings (some x)).current = some d
  /-- Every operation does, with its result and its files, what it does after
      that load alone. -/
  outcome_eq {before after : List (Step α)} {x : Step α} (h : xs = before ++ x :: after) :
    x.outcome = (replay settings (lastLoad? before)).perform x.files x.operation
  /-- What is asked is answered about the distribution of that load. -/
  answer_eq {before after : List (Step α)} {x : Step α} (h : xs = before ++ x :: after)
    {d : Distribution α} (hd : (lastLoad? before).bind Step.loaded? = some d) {question : Question}
    (hask : x.operation = .ask question) : x.outcome.result = d.answer settings question
  /-- Before there is a distribution, there is nothing to ask about or to save. -/
  noDistribution {before after : List (Step α)} {x : Step α} (h : xs = before ++ x :: after)
    (hnone : lastLoad? before = none) (hreading : x.operation.isReading) :
    x.outcome.result = .error .noDistribution

/-- **A session follows its last load**, whatever else has been done in it. -/
theorem follows (settings : Settings α) (fs : FileSystem) (ops : List (Operation α)) :
    Follows settings ((start settings).steps fs ops) where
  settings_eq {x} hx := by
    obtain ⟨before, after, hsplit⟩ := List.append_of_mem hx
    rw [outcome_eq_replay hsplit, session_perform, settings_replay]
  result_eq {x} hx built hbuilt := by
    obtain ⟨before, after, hsplit⟩ := List.append_of_mem hx
    rw [outcome_eq_replay hsplit]
    exact perform_of_built? _ _ ((settings_replay settings _).symm ▸ hbuilt)
  current_eq := by rw [after_eq_replay, current_replay]
  loaded_replay := Session.loaded_replay
  outcome_eq := outcome_eq_replay
  answer_eq {before after x} h d hd question hask := by
    obtain ⟨⟨ops', rfl⟩, -⟩ := of_steps_eq_append _ _ h
    rw [outcome_eq_replay h, hask, perform, Session.distribution, current_replay, hd,
      settings_replay]
    rfl
  noDistribution {before after x} h hnone hreading := by
    rw [outcome_eq_replay h, hnone]
    exact perform_of_isReading _ _ rfl hreading

end Session

end JointProb
