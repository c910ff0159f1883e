/-
  JointProb — the totals of accepted texts of conditional probabilities.

  The rows of a network need not have the sum one, only nearly so, and its
  weights are scaled.  How much there is to scale is bounded by the number of
  variables, and this by the number of assignments.

  * `Network.IsBayesian.near`: the rows of what a text describes are one up to
    the tolerance for sums;
  * `Catalog.WellFormed.two_pow_le_size`: with each variable there are at
    least twice as many assignments;
  * `Network.Balanced` says of a network how near to one its total is, and
    that it can be scaled under the default settings;
    `Network.balanced_of_ofText`: so it is for all texts.
-/
import JointProb.Proofs.Network.Deviation
import JointProb.Proofs.Spec.AcceptedNetwork
import JointProb.Spec.Build

namespace JointProb

/-! ## Rows -/

/-- The sum of the entries in a row is that of a row of the table. -/
theorem Node.exists_rows_sum {c : Catalog} {m : Node ℚ}
    (hlen : m.table.length = m.rowCount c * c.cardinalityAt m.child) {row : Nat}
    (hrow : row < m.rowCount c) : ∃ ps ∈ m.rows c,
      ∑ s ∈ Finset.range (c.cardinalityAt m.child), m.entryAt c row s = ps.sum := by
  refine ⟨_, List.mem_map_of_mem (List.mem_range.2 hrow), ?_⟩
  rw [Block.take_drop_eq_map (hlen ▸ Nat.mul_le_mul_right _ hrow)]
  rfl

/-- **The rows of what a text describes are nearly one.** -/
theorem Network.IsBayesian.near {settings : Settings ℚ} {d : NetworkDraft} {n : Network ℚ}
    (h : n.IsBayesian settings d) (h0 : 0 ≤ settings.tolerances.sum) :
    n.Near settings.tolerances.sum := fun m hm =>
  { nonneg := fun p hp => (h.isProbability hm p hp).1
    sum_row := fun row hrow => by
      have hlen : m.table.length = m.rowCount n.catalog * n.catalog.cardinalityAt m.child := by
        rw [h.length_table hm, Node.rowCount, MixedRadix.size_eq_prod, Node.radices]
      obtain ⟨ps, hps, hsum⟩ := Node.exists_rows_sum hlen hrow
      obtain ⟨_, -, -, -, ⟨-, hone⟩ | ⟨-, hnear⟩⟩ := h.exists_block hm
      · rwa [hsum, hone ps hps, sub_self, abs_zero]
      · rw [hsum]
        exact hnear ps hps }

/-! ## Numbers of variables -/

/-- **With each variable there are at least twice as many assignments.** -/
theorem Catalog.WellFormed.two_pow_le_size {cap : Nat} {c : Catalog} (hc : c.WellFormed cap) :
    2 ^ c.vars.length ≤ c.size := by
  have htwo : ∀ k ∈ c.vars.map Variable.cardinality, 2 ≤ k := by
    intro k hk
    obtain ⟨v, hv, rfl⟩ := List.mem_map.1 hk
    exact (hc.wellFormed_vars v hv).two_le_cardinality
  rw [hc.size_eq_prod, ← List.length_map Variable.cardinality]
  exact List.pow_card_le_prod _ 2 htwo

/-- Up to 22 rows that are off by a millionth do not take a total out of the
    band. -/
theorem near_one_of_mem {k : Nat} (hk : k ≤ 22) {total : ℚ}
    (h : total ∈ Set.Icc ((1 - 1e-6 : ℚ) ^ k) ((1 + 1e-6) ^ k)) :
    0 < total ∧ |total - 1| / total ≤ 0.05 := by
  have hlo : 24 / 25 ≤ total :=
    calc (24 / 25 : ℚ) ≤ (1 - 1e-6) ^ 22 := by norm_num
      _ ≤ (1 - 1e-6) ^ k := pow_le_pow_of_le_one (by norm_num) (by norm_num) hk
      _ ≤ total := h.1
  have hhi : total ≤ 26 / 25 :=
    calc total ≤ (1 + 1e-6 : ℚ) ^ k := h.2
      _ ≤ (1 + 1e-6) ^ 22 := pow_le_pow_right₀ (by norm_num) hk
      _ ≤ 26 / 25 := by norm_num
  have hpos : 0 < total := by linarith
  refine ⟨hpos, (div_le_iff₀ hpos).2 ?_⟩
  rw [abs_le]
  constructor <;> linarith

/-! ## Faults of names -/

section

variable {α : Type}

/-- No fault of names is about a total. -/
theorem Catalog.ends_rename (c : Catalog) (names : List String) :
    Ends (fun e : SpecError α => ∀ sum, e ≠ .networkSum sum) (fun _ => True) (c.rename names) := by
  rw [rename, noteNames_eq]
  have hnames := ends_checkNames (E := fun e : SpecError α => ∀ sum, e ≠ .networkSum sum) 0
    (by simp) (by simp) [] names
  exact (hnames.map (Q := fun _ => True) fun _ _ => trivial).map fun _ _ => trivial

theorem Distribution.ends_rename (d : Distribution α) (names : Option (List String)) :
    Ends (fun e => ∀ sum, e ≠ .networkSum sum) (fun _ => True) (d.rename names) := by
  unfold rename
  split
  · trivial
  next names =>
    split_ifs
    · rw [withNames]
      split
      · next e he =>
        have hends := d.catalog.ends_rename (α := α) names
        rwa [he] at hends
      · trivial
    · trivial

end

/-! ## Totals -/

namespace Network

variable {settings : Settings ℚ} {text : String} {n : Network ℚ}

/-- What can be said of the total of a network that a text describes. -/
structure Balanced (settings : Settings ℚ) (text : String) (n : Network ℚ) : Prop where
  /-- There is an order to multiply the tables in. -/
  exists_order : ∃ order, n.order = .ok order
  /-- The sum of the weights, before they are scaled, is off by what the rows
      of all variables may be off. -/
  total_mem {order : List Nat} (h : n.order = .ok order) : (n.weights order).sum ∈
    Set.Icc ((1 - settings.tolerances.sum) ^ n.catalog.vars.length)
      ((1 + settings.tolerances.sum) ^ n.catalog.vars.length)
  /-- Under the default settings this is not too much. -/
  exists_expand (h : settings = .default) : ∃ d, n.expand settings = .ok d
  /-- So no total is reported, whatever the names are. -/
  ne_networkSum (h : settings = .default) (names : Option (List String)) (sum : ℚ) :
    Distribution.ofText settings names .network text ≠ .error (.networkSum sum)

/-- **The total of a network is as near to one as its rows are**, and under the
    default settings always near enough to be scaled. -/
theorem balanced_of_ofText (h0 : 0 ≤ settings.tolerances.sum) (h1 : settings.tolerances.sum < 1)
    (h : ofText settings text = .ok n) : n.Balanced settings text := by
  obtain ⟨draft, hread, hnetwork⟩ := bind_eq_ok.1 h
  have hsound := NetworkDraft.sound_of_read hread
  have hn := NetworkDraft.wellFormed_of_network hnetwork
  have hnear := (isBayesian_of_network hsound (NetworkDraft.parentsDistinct_of_read hread)
    hnetwork).near h0
  have htotal {order : List Nat} (horder : n.order = .ok order) :=
    hnear.sum_weights_mem hn h0 h1 (parentsFirst_of_order horder)
  have hexpand (hdefault : settings = .default) : ∃ d, n.expand settings = .ok d := by
    have hcatalog := (NetworkDraft.of_network hsound hnetwork).1
    subst hdefault
    -- the cap on assignments is one on variables
    have hcount : n.catalog.vars.length ≤ 22 :=
      (Nat.pow_le_pow_iff_right Nat.one_lt_two).1
        (hcatalog.two_pow_le_size.trans hcatalog.size_le)
    exact exists_expand_of_total hn fun order horder => near_one_of_mem hcount (htotal horder)
  refine ⟨hn.exists_order, htotal, hexpand, fun hdefault names sum hsum => ?_⟩
  obtain ⟨d, hd⟩ := hexpand hdefault
  have hrename := d.ends_rename names
  simp only [Distribution.ofText, Distribution.ofNetwork, h, hd, bind, Except.bind] at hsum
  rw [hsum] at hrename
  exact hrename sum rfl

/-- Two variables, and a row a little above one. -/
theorem balanced_of_ofText_sky :
    let text := "variable Sky \x7bClear, Grey, Dark\x7d\nvariables: Rain\nSky <- None\n" ++
      "Clear: 0.5\nGrey: 0.3\nDark: 0.2000001\nRain <- Sky\n(0 | Clear): 0.9\n(1 | Clear): 0.1\n" ++
      "(0 | Grey): 0.5\n(1 | Grey): 0.5\n(0 | Dark): 0.3\n(1 | Dark): 0.7"
    let n : Network ℚ := ⟨.of [⟨"Sky", ["Clear", "Grey", "Dark"]⟩, .boolean "Rain"],
      [⟨0, [], [5 / 10, 3 / 10, 2000001 / 10000000]⟩,
        ⟨1, [0], [9 / 10, 1 / 10, 1 / 2, 1 / 2, 3 / 10, 7 / 10]⟩]⟩
    0 ≤ (Settings.default : Settings ℚ).tolerances.sum ∧
      (Settings.default : Settings ℚ).tolerances.sum < 1 ∧ ofText .default text = .ok n ∧
      (n.weights [0, 1]).sum = 10000001 / 10000000 ∧ n.Balanced .default text := by
  intro text n
  have h0 : 0 ≤ (Settings.default : Settings ℚ).tolerances.sum := by decide +kernel
  have h1 : (Settings.default : Settings ℚ).tolerances.sum < 1 := by decide +kernel
  have h : (ofText .default text).toOption = some n := by
    simp only [ofText, NetworkDraft.read, Line.numbered, text, String.toList_append]
    decide +kernel
  have hok := toOption_eq_some.1 h
  exact ⟨h0, h1, hok, by decide +kernel, balanced_of_ofText h0 h1 hok⟩

end Network

end JointProb
