/-
  JointProb — distributions that are written and read again.

  * `Distribution.HasWrittenPlaces`: probabilities that are written in full;
    `Distribution.reread_exact`: such distributions come back as they were, so
    that no two of them have the same text;
  * `Distribution.reread_near`: how far off the others come back;
  * `Distribution.reread_far`: with five variables that can be more than one
    unit of the ninth place.
-/
import JointProb.Proofs.Rounding
import JointProb.Proofs.Spec.Build
import JointProb.Proofs.Spec.Serialize

namespace JointProb.Distribution

open Decimal (rounded)

variable {settings : Settings ℚ} {d e : Distribution ℚ}

/-! ## Probabilities that are written in full -/

/-- A distribution over variables with the states `0` and `1` whose
    probabilities have no more places than are written. -/
structure HasWrittenPlaces (cap : Nat) (d : Distribution ℚ) : Prop where
  wellFormed : d.WellFormed cap
  isBoolean : d.IsBoolean
  exists_units : ∀ p ∈ d.probs, ∃ k : Nat, p = k / 10 ^ writtenPlaces

theorem eq_of_catalog_of_probs (hcatalog : d.catalog = e.catalog) (hprobs : d.probs = e.probs) :
    d = e := by
  cases d
  cases e
  cases hcatalog
  cases hprobs
  rfl

/-- Rounding changes nothing. -/
theorem HasWrittenPlaces.map_rounded {cap : Nat} (h : d.HasWrittenPlaces cap) :
    d.probs.map (rounded writtenPlaces) = d.probs := by
  have hself : ∀ p ∈ d.probs, rounded writtenPlaces p = p := by
    intro p hp
    obtain ⟨k, hk⟩ := h.exists_units p hp
    exact Decimal.rounded_eq_self hk
  rw [List.map_congr_left hself, List.map_id']

/-- The sum is one as it stands: scaling changes nothing either. -/
theorem HasWrittenPlaces.exists_reread (h : d.HasWrittenPlaces settings.maxAssignments)
    (hword : settings.maxAssignments < Text.wordLimit)
    (hband : 0 ≤ settings.tolerances.normalizationBand) :
    ∃ text, d.serialize = .ok text ∧ ofText settings none .table text = .ok d := by
  have hsum : (d.probs.map (rounded writtenPlaces)).sum = 1 := by
    rw [h.map_rounded, h.wellFormed.sum_probs]
  have hpos : 0 < (d.probs.map (rounded writtenPlaces)).sum := hsum ▸ zero_lt_one
  have hnear : |(d.probs.map (rounded writtenPlaces)).sum - 1| ≤
      settings.tolerances.normalizationBand * (d.probs.map (rounded writtenPlaces)).sum := by
    rwa [hsum, sub_self, abs_zero, mul_one]
  obtain ⟨text, e, htext, he, hcatalog, hprobs⟩ := exists_ofText_written h.wellFormed h.isBoolean
    h.wellFormed.wellFormed_catalog.size_le hword hpos hnear
  have hsame : e = d := by
    refine eq_of_catalog_of_probs hcatalog ?_
    rw [hprobs, hsum, h.map_rounded]
    simp
  exact ⟨text, htext, hsame ▸ he⟩

/-- **Probabilities that are written in full come back as they were**, so that
    different distributions have different texts and what is read again is
    written as before. -/
theorem reread_exact (hword : settings.maxAssignments < Text.wordLimit)
    (hband : 0 ≤ settings.tolerances.normalizationBand) :
    (∀ d : Distribution ℚ, d.HasWrittenPlaces settings.maxAssignments →
      ∃ text, d.serialize = .ok text ∧ ofText settings none .table text = .ok d) ∧
    (∀ d e : Distribution ℚ, d.HasWrittenPlaces settings.maxAssignments →
      e.HasWrittenPlaces settings.maxAssignments → d.serialize = e.serialize → d = e) ∧
    (∀ (d e : Distribution ℚ) (text : String), d.HasWrittenPlaces settings.maxAssignments →
      d.serialize = .ok text → ofText settings none .table text = .ok e →
        e.serialize = .ok text) := by
  refine ⟨fun d hd => hd.exists_reread hword hband, fun d e hd he hsame => ?_,
    fun d e text hd htext hread => ?_⟩
  · obtain ⟨text, htext, hread⟩ := hd.exists_reread hword hband
    obtain ⟨text', htext', hread'⟩ := he.exists_reread hword hband
    cases htext.symm.trans (hsame.trans htext')
    cases hread.symm.trans hread'
    rfl
  · obtain ⟨text', htext', hread'⟩ := hd.exists_reread hword hband
    cases htext.symm.trans htext'
    cases hread.symm.trans hread'
    exact htext

/-- Two distributions with one unit of the last place, a narrow band, and no
    more assignments than they have. -/
theorem reread_exact_narrow :
    let settings : Settings ℚ :=
      ⟨⟨1 / 10 ^ 6, 1 / 10 ^ 12, 1 / 10 ^ 9, 1 / 10 ^ 9⟩, 2, 4, none⟩
    let probs : List ℚ := [1 / 2, 1 / 10 ^ 10, 0, 4999999999 / 10 ^ 10]
    let d : Distribution ℚ := ⟨.of [.boolean "Rain", .boolean "Late"], probs, rfl⟩
    let e : Distribution ℚ := ⟨.of [.boolean "Late", .boolean "Rain"], probs, rfl⟩
    d.HasWrittenPlaces settings.maxAssignments ∧ e.HasWrittenPlaces settings.maxAssignments ∧
      (∃ text, d.serialize = .ok text ∧ ofText settings none .table text = .ok d) ∧
      d.serialize ≠ e.serialize := by
  intro settings probs d e
  have hunits : ∀ p ∈ probs, ∃ k : Nat, p = k / 10 ^ writtenPlaces := by
    have hprobs : probs = [5000000000, 1, 0, 4999999999].map
        fun k : Nat => (k : ℚ) / 10 ^ writtenPlaces := by decide +kernel
    rw [hprobs]
    intro p hp
    obtain ⟨k, -, rfl⟩ := List.mem_map.1 hp
    exact ⟨k, rfl⟩
  have hcatalog {names : List String} (hlength : names.length = 2)
      (hid : ∀ n ∈ names, isIdentifier n) (hnodup : names.Nodup) :
      (Catalog.of (names.map Variable.boolean)).WellFormed settings.maxAssignments := by
    have hne : names ≠ [] := List.length_pos_iff.1 (by omega)
    have hcap : 2 ^ names.length ≤ settings.maxAssignments := by
      rw [hlength]
      decide
    exact TableDraft.wellFormed_ofNames hne (TableDraft.ofNames_eq_ok hid hnodup hcap (by decide))
  have hprobability : ∀ p ∈ probs, IsProbability p := by decide +kernel
  have hsum : probs.sum = 1 := by decide +kernel
  have hd : d.HasWrittenPlaces settings.maxAssignments :=
    ⟨⟨@hcatalog ["Rain", "Late"] rfl (by decide) (by decide), rfl, hprobability, hsum⟩,
      by decide, hunits⟩
  have he : e.HasWrittenPlaces settings.maxAssignments :=
    ⟨⟨@hcatalog ["Late", "Rain"] rfl (by decide) (by decide), rfl, hprobability, hsum⟩,
      by decide, hunits⟩
  have hexact := @reread_exact settings (by decide) (by decide +kernel)
  refine ⟨hd, he, hexact.1 d hd, fun hsame => ?_⟩
  have hnames := congrArg (fun d : Distribution ℚ => d.catalog.names) (hexact.2.1 d e hd he hsame)
  exact absurd hnames (by decide)

/-! ## All other probabilities -/

/-- How far off a probability may be written. -/
def writtenError : ℚ := 1 / 2 / 10 ^ writtenPlaces

theorem writtenError_eq : writtenError = 1 / 20000000000 := by
  norm_num [writtenError, writtenPlaces]

/-- How far off one of `n` probabilities may be read again. -/
def rereadError (n : Nat) : ℚ := (n - 1) * writtenError / (1 - n * writtenError)

theorem WellFormed.two_le_length {cap : Nat} (hd : d.WellFormed cap) (h : d.IsBoolean) :
    2 ≤ d.probs.length := by
  have hne : d.catalog.names.length ≠ 0 := fun h0 => hd.names_ne_nil (List.length_eq_zero_iff.1 h0)
  rw [d.length_probs, h.size_eq]
  exact le_self_pow₀ one_le_two hne

/-- Under the default settings the errors of all probabilities together are
    small. -/
theorem mul_writtenError_le {n : Nat}
    (h : n ≤ (Settings.default : Settings ℚ).maxAssignments) : n * writtenError ≤ 1 / 1000 := by
  have hn : (n : ℚ) ≤ 2 ^ 22 := by exact_mod_cast (h : n ≤ 2 ^ 22)
  rw [writtenError_eq]
  linarith

/-- What is written is read again over the same variables, and near what it
    was. -/
theorem exists_reread_near {cap : Nat} (hd : d.WellFormed cap) (h : d.IsBoolean)
    (hcap : d.catalog.size ≤ (Settings.default : Settings ℚ).maxAssignments) :
    ∃ text e, d.serialize = .ok text ∧ ofText .default none .table text = .ok e ∧
      e.catalog = d.catalog ∧
      List.Forall₂ (fun q p => |q - p| ≤ rereadError d.probs.length) e.probs d.probs := by
  have hrounded : ∀ p ∈ d.probs, |rounded writtenPlaces p - p| ≤ writtenError :=
    fun p hp => Decimal.abs_rounded_sub_le (hd.isProbability_probs p hp).1
  have hsmall : d.probs.length * writtenError ≤ 1 / 1000 :=
    mul_writtenError_le (d.length_probs ▸ hcap)
  have htotal := Weights.abs_sum_map_sub_le hrounded
  rw [hd.sum_probs] at htotal
  have hnear := htotal.trans hsmall
  have hlow : 999 / 1000 ≤ (d.probs.map (rounded writtenPlaces)).sum := by
    linarith [(abs_le.1 hnear).1]
  have hband : |(d.probs.map (rounded writtenPlaces)).sum - 1| ≤
      (Settings.default : Settings ℚ).tolerances.normalizationBand *
        (d.probs.map (rounded writtenPlaces)).sum := by
    have hdefault : (Settings.default : Settings ℚ).tolerances.normalizationBand = 1 / 20 := by
      decide +kernel
    rw [hdefault]
    linarith
  have hword : (Settings.default : Settings ℚ).maxAssignments < Text.wordLimit := by
    decide +kernel
  obtain ⟨text, e, htext, he, hcatalog, hprobs⟩ :=
    exists_ofText_written hd h hcap hword (by linarith) hband
  refine ⟨text, e, htext, he, hcatalog, ?_⟩
  rw [hprobs, List.map_map, List.forall₂_map_left_iff, List.forall₂_same]
  intro p hp
  exact Weights.abs_div_sum_sub_le hrounded hd.sum_probs (hd.two_le_length h) (by linarith) hp
    (hd.isProbability_probs p hp)

/-- With up to four variables the error is below a unit of the ninth place. -/
theorem rereadError_le {n : Nat} (h : n ≤ 16) : rereadError n ≤ 1 / 10 ^ 9 := by
  have hn : (n : ℚ) ≤ 16 := by exact_mod_cast h
  rw [rereadError, writtenError_eq, div_le_iff₀ (by linarith)]
  linarith

/-- **A distribution that a text describes is read again as it was written,
    up to an error**, which for more than four variables may be more than a
    unit of the ninth place. -/
theorem reread_near {names : Option (List String)} {format : Format} {text : String}
    (h : ofText settings names format text = .ok d) (hboolean : d.IsBoolean)
    (hcap : d.catalog.size ≤ (Settings.default : Settings ℚ).maxAssignments) :
    ∃ written e, d.serialize = .ok written ∧ ofText .default none .table written = .ok e ∧
      e.catalog = d.catalog ∧
      List.Forall₂ (fun q p => |q - p| ≤ rereadError d.probs.length) e.probs d.probs ∧
      (d.catalog.vars.length ≤ 4 →
        List.Forall₂ (fun q p => |q - p| ≤ 1 / 10 ^ 9) e.probs d.probs) := by
  obtain ⟨written, e, hwritten, he, hcatalog, hnear⟩ :=
    exists_reread_near (wellFormed_ofText h) hboolean hcap
  refine ⟨written, e, hwritten, he, hcatalog, hnear, fun hfour => ?_⟩
  have hlength : d.probs.length ≤ 16 := by
    rw [d.length_probs, hboolean.size_eq, Catalog.names, List.length_map]
    exact Nat.pow_le_pow_right two_pos hfour
  exact hnear.imp fun q p hqp => hqp.trans (rereadError_le hlength)

/-- Eleven places, and a pattern that is not listed. -/
theorem reread_near_missing :
    let text := "variables: Rain, Late\n00: 0.12345678901\n01: 0.2\n10: 0.3"
    ∃ d : Distribution ℚ, ofText .default none .table text = .ok d ∧
      d.probs = [12345678901 / 10 ^ 11, 1 / 5, 3 / 10, 37654321099 / 10 ^ 11] ∧
      ∃ written e, d.serialize = .ok written ∧ ofText .default none .table written = .ok e ∧
        e.catalog.names = ["Rain", "Late"] ∧
        List.Forall₂ (fun q p => |q - p| ≤ 1 / 10 ^ 9) e.probs d.probs := by
  intro text
  have h : (ofText .default none .table text).toOption.map
      (fun d : Distribution ℚ => (d.catalog, d.probs)) =
        some (.of [.boolean "Rain", .boolean "Late"],
          [12345678901 / 10 ^ 11, 1 / 5, 3 / 10, 37654321099 / 10 ^ 11]) := by
    decide +kernel
  obtain ⟨d, hd, hparts⟩ := Option.map_eq_some_iff.1 h
  obtain ⟨hcatalog, hprobs⟩ := Prod.mk.inj hparts
  have hok := toOption_eq_some.1 hd
  have hboolean : d.IsBoolean := by
    unfold IsBoolean
    rw [hcatalog]
    decide
  have hcap : d.catalog.size ≤ (Settings.default : Settings ℚ).maxAssignments := by
    rw [hcatalog]
    decide +kernel
  obtain ⟨written, e, hwritten, he, hsame, -, hnear⟩ := reread_near hok hboolean hcap
  refine ⟨d, hok, hprobs, written, e, hwritten, he, ?_, hnear ?_⟩
  · rw [hsame, hcatalog]
    decide
  · rw [hcatalog]
    decide

/-- **With five variables the error can be more than a unit of the ninth
    place.**  One probability is rounded up and all others to nothing, so
    that the one becomes certain. -/
theorem reread_far :
    let text := "00000: 0.99999999876" ++ String.join ((List.range 31).map fun i =>
      "\n" ++ String.ofList (Decimal.padded 2 5 (i + 1)) ++ ": 0.00000000004")
    ∃ (d e : Distribution ℚ) (written : String), ofText .default none .table text = .ok d ∧
      d.IsBoolean ∧ d.catalog.size ≤ (Settings.default : Settings ℚ).maxAssignments ∧
      d.serialize = .ok written ∧ ofText .default none .table written = .ok e ∧
      ¬ List.Forall₂ (fun q p => |q - p| ≤ 1 / 10 ^ 9) e.probs d.probs := by
  intro text
  have h : (ofText .default none .table text).toOption.map
      (fun d : Distribution ℚ => (d.catalog, d.probs)) =
        some (.of ((defaultNames 5).map Variable.boolean),
          99999999876 / 10 ^ 11 :: List.replicate 31 (4 / 10 ^ 11)) := by
    simp only [ofText, ofTable, TableDraft.read, Line.numbered, text, String.toList_append,
      String.toList_join, List.flatMap_map, String.toList_ofList]
    decide +kernel
  obtain ⟨d, hd, hparts⟩ := Option.map_eq_some_iff.1 h
  obtain ⟨hcatalog, hprobs⟩ := Prod.mk.inj hparts
  have hok := toOption_eq_some.1 hd
  have hboolean : d.IsBoolean := by
    unfold IsBoolean
    rw [hcatalog]
    decide
  have hcap : d.catalog.size ≤ (Settings.default : Settings ℚ).maxAssignments := by
    rw [hcatalog]
    decide +kernel
  have hrounded : d.probs.map (rounded writtenPlaces) =
      9999999988 / 10 ^ 10 :: List.replicate 31 0 := by
    rw [hprobs]
    decide +kernel
  have hsum : (d.probs.map (rounded writtenPlaces)).sum = 9999999988 / 10 ^ 10 := by
    rw [hrounded]
    decide +kernel
  obtain ⟨written, e, hwritten, he, -, hreread⟩ := @exists_ofText_written _ d .default
    (wellFormed_ofText hok) hboolean hcap (by decide +kernel) (by rw [hsum]; decide +kernel)
    (by rw [hsum]; decide +kernel)
  refine ⟨d, e, written, hok, hboolean, hcap, hwritten, he, ?_⟩
  rw [hreread, hsum, hrounded, hprobs, List.map_cons, List.forall₂_cons]
  rintro ⟨hfirst, -⟩
  norm_num [abs_of_nonneg] at hfirst

end JointProb.Distribution
