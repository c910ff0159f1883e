/-
  JointProb — why statistics do not exist.

  * `Distribution.ends_entropy`, `Distribution.ends_conditionalEntropy` and
    `Distribution.ends_mutualInformation`: in a base that makes sense, the cause
    is a variable that the distribution does not have, or a negative amount of
    mutual information;
  * `Session.ends_perform`: under settings with such a base, no operation
    complains about a base.
-/
import JointProb.Proofs.Result
import JointProb.Session

namespace JointProb

variable {α : Type}

/-- A variable that does not exist is the cause. -/
def StatsError.IsRange (e : StatsError α) : Prop := ∃ i n, e = .variableOutOfRange i n

/-- A base of logarithms is not the cause. -/
def StatsError.NotBase (e : StatsError α) : Prop := ∀ b, e ≠ .invalidBase b

/-- No base of logarithms is the cause. -/
def Failure.NotBase (e : Failure α) : Prop := ∀ b, e ≠ .stats (.invalidBase b)

theorem StatsError.IsRange.notBase {e : StatsError α} (h : e.IsRange) : e.NotBase := by
  obtain ⟨i, n, rfl⟩ := h
  nofun

theorem Failure.notBase_stats {e : StatsError α} (h : e.NotBase) : (Failure.stats e).NotBase :=
  fun b heq => h b (Failure.stats.inj heq)

namespace Distribution

variable (d : Distribution α)

theorem ends_checkVariables (vars : List Nat) :
    Ends StatsError.IsRange (fun _ => True) (d.checkVariables vars) := by
  rw [checkVariables]
  split
  · exact ⟨_, _, rfl⟩
  · trivial

theorem ends_binaryStates (var : Nat) :
    Ends StatsError.NotBase (fun _ => True) (d.binaryStates var) := by
  rw [binaryStates]
  split
  · nofun
  · split
    · trivial
    · nofun

variable [Scalar α]

theorem ends_marginal (vars : List Nat) :
    Ends StatsError.IsRange (fun _ => True) (d.marginal vars) :=
  (d.ends_checkVariables vars).map fun _ _ => trivial

theorem ends_twoByTwo (exposure outcome : Nat) :
    Ends StatsError.NotBase (fun _ => True) (d.twoByTwo exposure outcome) :=
  ((d.ends_checkVariables _).mono_error fun _ => StatsError.IsRange.notBase).bind fun _ _ =>
    (d.ends_binaryStates _).bind fun _ _ => (d.ends_binaryStates _).bind fun _ _ => trivial

/-! ## Information -/

variable [NaturalLog α] {base : α}

theorem ends_entropy (hbase : Information.validBase base) (vars : Option (List Nat)) :
    Ends StatsError.IsRange (fun _ => True) (d.entropy base vars) := by
  rw [entropy, if_pos hbase]
  cases vars with
  | none => trivial
  | some vars =>
    have hprobs : Ends StatsError.IsRange (fun _ => True) (d.probsOf (some vars)) :=
      (d.ends_marginal vars).map fun _ _ => trivial
    exact hprobs.map fun _ _ => trivial

theorem ends_conditionalEntropy (hbase : Information.validBase base) (targets givens : List Nat) :
    Ends StatsError.IsRange (fun _ => True) (d.conditionalEntropy base targets givens) :=
  (d.ends_entropy hbase _).bind fun _ _ => (d.ends_entropy hbase _).bind fun _ _ => trivial

theorem ends_mutualInformation (hbase : Information.validBase base) (tolerance : α)
    (a b : List Nat) : Ends (fun e => e.IsRange ∨ ∃ x, e = .negativeInformation x tolerance)
      (fun _ => True) (d.mutualInformation tolerance base a b) := by
  have hentropy (vars : List Nat) := (d.ends_entropy hbase (some vars)).mono_error
    fun e he => Or.inl (b := ∃ x, e = .negativeInformation x tolerance) he
  refine (hentropy a).bind fun left _ => (hentropy b).bind fun right _ =>
    (hentropy (a ++ b)).bind fun joint _ => ?_
  dsimp only
  split
  · exact Or.inr ⟨_, rfl⟩
  · trivial

/-! ## Questions -/

theorem ends_answer {settings : Settings α} (hbase : Information.validBase settings.entropyBase)
    (question : Question) :
    Ends Failure.NotBase (fun _ => True) (d.answer settings question) := by
  have hstats {β : Type} {x : Except (StatsError α) β} {f : β → Answer α}
      (h : Ends StatsError.NotBase (fun _ => True) x) :
      Ends Failure.NotBase (fun _ => True) ((x.mapError .stats).map f) :=
    (h.mapError fun _ => Failure.notBase_stats).map fun _ _ => trivial
  have hrange {β : Type} {x : Except (StatsError α) β}
      (h : Ends StatsError.IsRange (fun _ => True) x) :
      Ends StatsError.NotBase (fun _ => True) x :=
    h.mono_error fun _ => StatsError.IsRange.notBase
  cases question with
  | query text =>
    rw [answer]
    cases d.askWith settings.tolerances text with
    | error e => nofun
    | ok v => trivial
  | marginal vars => exact hstats (hrange (d.ends_marginal vars))
  | entropy vars => exact hstats (hrange (d.ends_entropy hbase vars))
  | conditionalEntropy targets givens =>
    exact hstats (hrange (d.ends_conditionalEntropy hbase targets givens))
  | mutualInformation a b =>
    refine hstats ((d.ends_mutualInformation hbase _ a b).mono_error fun e he => ?_)
    obtain hrange | ⟨x, rfl⟩ := he
    · exact hrange.notBase
    · nofun
  | oddsRatio exposure outcome =>
    exact hstats ((d.ends_twoByTwo exposure outcome).map fun _ _ => trivial)
  | relativeRisk exposure outcome =>
    exact hstats ((d.ends_twoByTwo exposure outcome).map fun _ _ => trivial)
  | sample words => trivial

end Distribution

/-! ## Operations -/

theorem Distribution.ends_save [DecimalText α] (d : Distribution α) (fs : FileSystem) (p : Path) :
    Ends Failure.NotBase (fun _ => True) (d.save fs p).1 := by
  rw [save]
  split
  · nofun
  · split
    · trivial
    · nofun

variable [Scalar α]

theorem Distribution.ends_ofFile (settings : Settings α) (fs : FileSystem) (p : Path) :
    Ends Failure.NotBase (fun _ => True) (Distribution.ofFile settings fs p) := by
  rw [ofFile]
  cases fs.readText? p with
  | none => nofun
  | some text =>
    dsimp only
    cases ofText settings none _ text with
    | error e => nofun
    | ok d => trivial

variable [NaturalLog α] [DecimalText α]

/-- **No operation complains about the base** that the settings have, if it
    makes sense. -/
theorem Session.ends_perform (s : Session α) (hbase : Information.validBase s.settings.entropyBase)
    (fs : FileSystem) (op : Operation α) :
    Ends Failure.NotBase (fun _ => True) (s.perform fs op).result := by
  have hdistribution : Ends Failure.NotBase (fun _ => True) s.distribution := by
    rw [Session.distribution]
    split
    · trivial
    · nofun
  cases op with
  | load text format =>
    rw [perform]
    cases Distribution.ofText s.settings none format text with
    | error e => nofun
    | ok d => trivial
  | loadFile p => exact (Distribution.ends_ofFile s.settings fs p).map fun _ _ => trivial
  | replace d => trivial
  | inspectFile p => exact (Distribution.ends_ofFile .default fs p).map fun _ _ => trivial
  | save p =>
    rw [perform]
    cases hd : s.distribution with
    | error e => rwa [hd] at hdistribution
    | ok d => exact (d.ends_save fs p).map fun _ _ => trivial
  | ask question => exact hdistribution.bind fun d _ => d.ends_answer hbase question

end JointProb
