/-
  JointProb — texts of conditional probabilities in another order.

  * `Reordered` says of two texts that they declare the same variables and have
    the same blocks, in whatever order;
  * `Reordered.exists_network`: the other text describes the same network, its
    variables at other positions;
  * `Reordered.same_answers`: so one text builds if the other one does, and
    all queries have the same answers.
-/
import JointProb.Proofs.Query.Renumbering
import JointProb.Proofs.Spec.Network
import JointProb.Proofs.Spec.Parts
import JointProb.Spec.Build

namespace JointProb

open Text

variable {σ : Equiv.Perm ℕ} {vs vs' : List Variable}

/-! ## Blocks -/

namespace NetworkDraft

theorem indexOf?_renumber (h : Renumbering σ vs vs') (hnodup : (vs.map Variable.name).Nodup)
    (name : List Char) :
    indexOf? ⟨vs', []⟩ name = (indexOf? ⟨vs, []⟩ name).map σ := by
  have hnodup' : (vs'.map Variable.name).Nodup := (h.map Variable.name).perm.nodup_iff.1 hnodup
  refine Option.ext fun j => ?_
  rw [indexOf?_eq_some_iff hnodup', Option.map_eq_some_iff, ← σ.apply_symm_apply j,
    h.map Variable.name]
  simp only [σ.injective.eq_iff, exists_eq_right]
  exact (indexOf?_eq_some_iff (d := ⟨vs, []⟩) hnodup).symm

/-- **Lines are a block over all orders of the variables**, or over none. -/
theorem reads_renumber (h : Renumbering σ vs vs') (hnodup : (vs.map Variable.name).Nodup)
    {x : BlockLines} {b : Block} (hx : x.Reads vs b) :
    x.Reads vs' ⟨σ b.child, b.parents.map σ, b.line, b.entries⟩ where
  header := ⟨hx.header.isDeclaration_eq,
    readHeader_renumber (indexOf?_renumber h hnodup) hx.header.readHeader_eq 0⟩
  entries := hx.entries.imp fun _ _ he => ⟨he.isDeclaration_eq,
    readHeader_renumber (indexOf?_renumber h hnodup) he.readHeader_eq 0, he.cut_eq⟩

/-- They are the same block. -/
theorem renumbered_of_reads (h : Renumbering σ vs vs') (hnodup : (vs.map Variable.name).Nodup)
    {x : BlockLines} {b b' : Block} (hx : x.Reads vs b) (hx' : x.Reads vs' b') :
    b.Renumbered σ b' := by
  have hheader := (reads_renumber h hnodup hx).header.readHeader_eq.symm.trans
    hx'.header.readHeader_eq
  obtain ⟨hchild, hparents⟩ := Prod.mk.inj (Option.some.inj (Except.ok.inj hheader))
  refine ⟨hchild.symm, hparents.symm, forall₂_join hx.entries hx'.entries fun _ _ _ he he' => ?_⟩
  obtain ⟨hkey, hvalue⟩ := Prod.mk.inj (Option.some.inj (he'.cut_eq.symm.trans he.cut_eq))
  exact ⟨hkey, hvalue⟩

end NetworkDraft

/-! ## Networks -/

/-- A catalog can be made of variables in any order. -/
theorem Catalog.ofVariables_renumber (h : Renumbering σ vs vs') {cap : ℕ} {c : Catalog}
    (hc : (ofVariables vs cap : Except (SpecError ℚ) Catalog) = .ok c) :
    ∃ c', (ofVariables vs' cap : Except (SpecError ℚ) Catalog) = .ok c' ∧
      Renumbering σ c.vars c'.vars := by
  obtain ⟨rfl, hstep, hcap, hword, hid⟩ := ofVariables_eq_ok_iff.1 hc
  have hc' : Renumbering σ c.vars (of vs').vars := by rwa [vars_of]
  have hsize := size_renumber hc'
  have hnames : c.names.Perm (of vs').names := (hc'.map Variable.name).perm
  have hnodup := hnames.nodup_iff.1 hstep.nodup_names
  rw [names_of] at hnodup
  exact ⟨of vs', ofVariables_eq_ok_iff.2 ⟨vars_of vs', inStep_of hnodup, hsize ▸ hcap,
    hsize ▸ hword, fun name hname => hid name (hnames.mem_iff.2 hname)⟩, hc'⟩

namespace NetworkDraft

section

variable {c c' : Catalog} {bs bs₁ bs' : List Block}

theorem checkBlocks_renumber (h : Renumbering σ c.vars c'.vars) (hc : c.InStep) (hc' : c'.InStep)
    (hbs : List.Forall₂ (Block.Renumbered σ) bs bs₁) (hperm : bs₁.Perm bs')
    (hcheck : ((mk c.vars bs.reverse).checkBlocks c : Except (SpecError ℚ) Unit) = .ok ()) :
    ((mk c'.vars bs'.reverse).checkBlocks c' : Except (SpecError ℚ) Unit) = .ok () := by
  refine checkBlocks_eq_ok hc' fun i hi => ?_
  obtain ⟨b, hb, hchild⟩ := (checkBlocks_eq_ok_iff hc).1 hcheck _ (h.symm_lt_iff.2 hi)
  obtain ⟨b₁, hb₁, hrenumbered⟩ := exists_right_of_forall₂ hbs (List.mem_reverse.1 hb)
  refine ⟨b₁, hperm.mem_iff.1 hb₁, ?_⟩
  rw [hrenumbered.child_eq, hchild, σ.apply_symm_apply]

/-- The nodes of the blocks, in the order of these. -/
theorem exists_nodes_renumber (h : Renumbering σ c.vars c'.vars)
    (hbs : List.Forall₂ (Block.Renumbered σ) bs bs₁) (hperm : bs₁.Perm bs')
    {settings : Settings ℚ} {nodes : List (Node ℚ)}
    (hnodes : bs.mapM (fun b => b.node c settings) = .ok nodes) :
    ∃ nodes', bs'.mapM (fun b => b.node c' settings) = .ok nodes' ∧
      (nodes.map (Node.renumber σ)).Perm nodes' := by
  have hrenumbered : List.Forall₂ (fun b m => b.node c' settings = .ok m) bs₁
      (nodes.map (Node.renumber σ)) :=
    List.forall₂_map_right_iff.2
      (forall₂_join hbs (mapM_eq_ok.1 hnodes) fun _ _ _ hb => hb.node_eq_ok h)
  obtain ⟨nodes', hnodes', hnodesPerm⟩ := List.perm_comp_forall₂ hperm.symm hrenumbered
  exact ⟨nodes', mapM_eq_ok.2 hnodes', hnodesPerm.symm⟩

end

/-- **The same blocks in another order describe the same network**, its
    variables at other positions. -/
theorem exists_network_renumber (h : Renumbering σ vs vs') {bs bs₁ bs' : List Block}
    (hbs : List.Forall₂ (Block.Renumbered σ) bs bs₁) (hperm : bs₁.Perm bs')
    {settings : Settings ℚ} {n : Network ℚ} (hn : network ⟨vs, bs.reverse⟩ settings = .ok n) :
    ∃ n', network ⟨vs', bs'.reverse⟩ settings = .ok n' ∧ n.Renumbered σ n' := by
  obtain ⟨hne, c, nodes, hc, hcheck, hnodes, hofNodes⟩ := network_eq_ok_iff.1 hn
  rw [List.reverse_reverse] at hnodes
  obtain ⟨c', hc', hcatalogs⟩ := Catalog.ofVariables_renumber h hc
  obtain ⟨rfl, hstep, -⟩ := Catalog.ofVariables_eq_ok_iff.1 hc
  obtain ⟨rfl, hstep', -⟩ := Catalog.ofVariables_eq_ok_iff.1 hc'
  have hcheck' := checkBlocks_renumber hcatalogs hstep hstep' hbs hperm hcheck
  obtain ⟨nodes', hnodes', hnodesPerm⟩ := exists_nodes_renumber hcatalogs hbs hperm hnodes
  obtain ⟨n', hn', hrenumbered⟩ := Network.exists_ofNodes_renumber hcatalogs hnodesPerm hofNodes
  refine ⟨n', network_eq_ok_iff.2 ⟨?_, c', nodes', hc', hcheck', ?_, hn'⟩, hrenumbered⟩
  · intro hnil
    exact hne (List.length_eq_zero_iff.1 (h.length_eq.symm.trans (List.length_eq_zero_iff.2 hnil)))
  · rwa [List.reverse_reverse]

end NetworkDraft

/-! ## Texts -/

/-- The same variables and the same blocks, both in whatever order. -/
structure Reordered (vs vs' : List Variable) (xs xs' : List BlockLines) (text text' : String) :
    Prop where
  parts : HasParts vs xs (Line.numbered text)
  parts' : HasParts vs' xs' (Line.numbered text')
  vars_perm : vs.Perm vs'
  blocks_perm : xs.Perm xs'
  isBlock : ∀ x ∈ xs, x.IsBlock vs

namespace Reordered

variable {xs xs' : List BlockLines} {text text' : String}

/-- Every text that can be read has an order. -/
theorem exists_refl {d : NetworkDraft}
    (h : (NetworkDraft.read text : Except (SpecError ℚ) NetworkDraft) = .ok d) :
    ∃ xs, Reordered d.vars d.vars xs xs text text := by
  obtain ⟨xs, hparts, hblocks⟩ := exists_isBlock h
  exact ⟨xs, hparts, hparts, .refl _, .refl _, hblocks⟩

/-- **The other text describes the same network**, its variables at other
    positions. -/
theorem exists_network (h : Reordered vs vs' xs xs' text text') {settings : Settings ℚ}
    {n : Network ℚ} (hn : Network.ofText settings text = .ok n) :
    ∃ σ n', Network.ofText settings text' = .ok n' ∧ n.Renumbered σ n' := by
  obtain ⟨d, hread, hn⟩ := bind_eq_ok.1 hn
  obtain ⟨bs, rfl, hbs, hnodup⟩ := h.parts.of_read h.isBlock hread
  have hnames := h.parts.nodup_names
  obtain ⟨σ, hσ⟩ := exists_renumbering h.vars_perm
  -- the blocks at the new positions, then in the other order, then in the lines of the other text
  have hmoved : List.Forall₂ (BlockLines.Reads vs') xs
      (bs.map fun b => ⟨σ b.child, b.parents.map σ, b.line, b.entries⟩) :=
    List.forall₂_map_right_iff.2 (hbs.imp fun _ _ hx => NetworkDraft.reads_renumber hσ hnames hx)
  obtain ⟨bs₁, hbs₁, hperm⟩ := List.perm_comp_forall₂ h.blocks_perm.symm hmoved
  have hnodup₁ : (bs₁.map Block.child).Nodup := by
    rw [(hperm.map _).nodup_iff, List.map_map]
    have hmap := hnodup.map σ.injective
    rwa [List.map_map] at hmap
  obtain ⟨bs', hread', hbs'⟩ := h.parts'.exists_read hbs₁ hnodup₁
  obtain ⟨bs₂, hbs₂, hperm'⟩ := List.perm_comp_forall₂ h.blocks_perm hbs'
  have hsame : List.Forall₂ (Block.Renumbered σ) bs bs₂ :=
    forall₂_join hbs hbs₂ fun _ _ _ => NetworkDraft.renumbered_of_reads hσ hnames
  obtain ⟨n', hn', hrenumbered⟩ := NetworkDraft.exists_network_renumber hσ hsame hperm' hn
  exact ⟨σ, n', bind_eq_ok.2 ⟨_, hread', hn'⟩, hrenumbered⟩

/-- **The other text builds the same distribution**, its variables at other
    positions. -/
theorem exists_distribution (h : Reordered vs vs' xs xs' text text') {settings : Settings ℚ}
    {d : Distribution ℚ} (hd : Distribution.ofText settings none .network text = .ok d) :
    ∃ σ d', Distribution.ofText settings none .network text' = .ok d' ∧ d.Renumbered σ d' := by
  obtain ⟨n, hn, hd⟩ := bind_eq_ok.1 hd
  obtain ⟨e, hexpand, hd⟩ := bind_eq_ok.1 hd
  cases hd
  obtain ⟨draft, -, hnetwork⟩ := bind_eq_ok.1 hn
  obtain ⟨σ, n', hn', hrenumbered⟩ := h.exists_network hn
  obtain ⟨e', hexpand', he'⟩ :=
    hrenumbered.exists_expand (NetworkDraft.wellFormed_of_network hnetwork) hexpand
  exact ⟨σ, e', bind_eq_ok.2 ⟨n', hn', bind_eq_ok.2 ⟨e', hexpand', rfl⟩⟩, he'⟩

/-- The texts can be exchanged. -/
theorem symm (h : Reordered vs vs' xs xs' text text') : Reordered vs' vs xs' xs text' text where
  parts := h.parts'
  parts' := h.parts
  vars_perm := h.vars_perm.symm
  blocks_perm := h.blocks_perm.symm
  isBlock x hx := by
    obtain ⟨σ, hσ⟩ := exists_renumbering h.vars_perm
    obtain ⟨b, hb⟩ := h.isBlock x (h.blocks_perm.mem_iff.2 hx)
    exact ⟨_, NetworkDraft.reads_renumber hσ h.parts.nodup_names hb⟩

/-- **The order of a text does not matter.**  A text builds if it does so in
    another order, and all queries have the same answers and the same faults. -/
theorem same_answers (h : Reordered vs vs' xs xs' text text') (settings : Settings ℚ) :
    ((∃ d, Distribution.ofText settings none .network text = .ok d) ↔
      ∃ d', Distribution.ofText settings none .network text' = .ok d') ∧
    ∀ {d d' : Distribution ℚ}, Distribution.ofText settings none .network text = .ok d →
      Distribution.ofText settings none .network text' = .ok d' →
      ∀ (tolerances : Tolerances ℚ) (query : String),
        d'.askWith tolerances query = d.askWith tolerances query := by
  refine ⟨⟨fun ⟨d, hd⟩ => ?_, fun ⟨d', hd'⟩ => ?_⟩, fun {d d'} hd hd' tolerances query => ?_⟩
  · obtain ⟨_, d', hd', -⟩ := h.exists_distribution hd
    exact ⟨d', hd'⟩
  · obtain ⟨_, d, hd, -⟩ := h.symm.exists_distribution hd'
    exact ⟨d, hd⟩
  · obtain ⟨σ, e, he, hrenumbered⟩ := h.exists_distribution hd
    obtain rfl : e = d' := Except.ok.inj (he.symm.trans hd')
    have hstep := (Distribution.wellFormed_ofNetwork hd).wellFormed_catalog.toInStep
    have hstep' := (Distribution.wellFormed_ofNetwork hd').wellFormed_catalog.toInStep
    exact hrenumbered.askWith_eq hstep hstep' tolerances query

/-- Other positions, blocks in another order, a comment and a blank line: other
    strides, and the tables are multiplied in another order. -/
theorem same_answers_weather :
    let sky : Variable := ⟨"Sky", ["Clear", "Grey", "Dark"]⟩
    let text := "variable Sky \x7bClear, Grey, Dark\x7d\nvariables: Rain, Late\nRain:\n1: 0.3\n" ++
      "Sky <- (Rain)\n(Clear | 0): 0.6\n(Grey | 0): 0.3\n(Dark | 0): 0.1\n(Clear | 1): 0.1\n" ++
      "(Grey | 1): 0.4\n(Dark | 1): 0.5\nLate: Rain\n0: 0.15\n1: 0.6"
    let text' := "variables: Late\nvariable Sky \x7bClear, Grey, Dark\x7d # three\nvariables: Rain\n" ++
      "\nLate: Rain\n0: 0.15\n1: 0.6\nSky <- (Rain)\n(Clear | 0): 0.6\n(Grey | 0): 0.3\n" ++
      "(Dark | 0): 0.1\n(Clear | 1): 0.1\n(Grey | 1): 0.4\n(Dark | 1): 0.5\nRain:\n1: 0.3"
    let xs : List BlockLines := [⟨"Rain:".toList, ["1: 0.3".toList]⟩,
      ⟨"Sky <- (Rain)".toList, ["(Clear | 0): 0.6".toList, "(Grey | 0): 0.3".toList,
        "(Dark | 0): 0.1".toList, "(Clear | 1): 0.1".toList, "(Grey | 1): 0.4".toList,
        "(Dark | 1): 0.5".toList]⟩,
      ⟨"Late: Rain".toList, ["0: 0.15".toList, "1: 0.6".toList]⟩]
    Reordered [sky, .boolean "Rain", .boolean "Late"] [.boolean "Late", sky, .boolean "Rain"]
        xs xs.reverse text text' ∧
      ∃ n n' : Network ℚ, Network.ofText .default text = .ok n ∧ n.order = .ok [1, 0, 2] ∧
        Network.ofText .default text' = .ok n' ∧ n'.order = .ok [2, 0, 1] ∧
      ∃ d d', Distribution.ofText .default none .network text = .ok d ∧
        d.catalog.placeValues = [4, 2, 1] ∧ d.probs.take 2 = [357 / 1000, 63 / 1000] ∧
        Distribution.ofText .default none .network text' = .ok d' ∧
        d'.catalog.placeValues = [6, 2, 1] ∧ d'.probs.take 2 = [357 / 1000, 12 / 1000] ∧
        ∀ (tolerances : Tolerances ℚ) (query : String),
          d'.askWith tolerances query = d.askWith tolerances query := by
  intro sky text text' xs
  have hblocks : List.Forall₂ (BlockLines.Reads [sky, .boolean "Rain", .boolean "Late"]) xs
      [⟨1, [], 0, [⟨0, "1".toList, "0.3".toList⟩]⟩,
        ⟨0, [1], 0, [⟨0, "(Clear | 0)".toList, "0.6".toList⟩, ⟨0, "(Grey | 0)".toList, "0.3".toList⟩,
          ⟨0, "(Dark | 0)".toList, "0.1".toList⟩, ⟨0, "(Clear | 1)".toList, "0.1".toList⟩,
          ⟨0, "(Grey | 1)".toList, "0.4".toList⟩, ⟨0, "(Dark | 1)".toList, "0.5".toList⟩]⟩,
        ⟨2, [1], 0, [⟨0, "0".toList, "0.15".toList⟩, ⟨0, "1".toList, "0.6".toList⟩]⟩] := by
    decide +kernel
  have hlines : Line.numbered text = (["variable Sky \x7bClear, Grey, Dark\x7d".toList,
      "variables: Rain, Late".toList].zipIdx 1).map Prod.swap ++
      ((xs.flatMap BlockLines.all).zipIdx 3).map Prod.swap := by
    simp only [Line.numbered, text, String.toList_append]
    decide +kernel
  have hlines' : Line.numbered text' = (["variables: Late".toList,
      "variable Sky \x7bClear, Grey, Dark\x7d".toList, "variables: Rain".toList].zipIdx 1).map
      Prod.swap ++ ((xs.reverse.flatMap BlockLines.all).zipIdx 5).map Prod.swap := by
    simp only [Line.numbered, text', String.toList_append]
    decide +kernel
  have hreordered : Reordered [sky, .boolean "Rain", .boolean "Late"]
      [.boolean "Late", sky, .boolean "Rain"] xs xs.reverse text text' :=
    { parts := ⟨_, _, hlines, toOption_eq_some.1 (by decide +kernel), by decide +kernel⟩
      parts' := ⟨_, _, hlines', toOption_eq_some.1 (by decide +kernel), by decide +kernel⟩
      vars_perm := by decide
      blocks_perm := (List.reverse_perm xs).symm
      isBlock := fun x hx => by
        obtain ⟨b, -, hb⟩ := exists_right_of_forall₂ hblocks hx
        exact ⟨b, hb⟩ }
  have hn : ((Network.ofText .default text).bind fun n : Network ℚ => n.order).toOption =
      some [1, 0, 2] := by
    rw [Network.ofText, NetworkDraft.read, hlines]
    decide +kernel
  have hn' : ((Network.ofText .default text').bind fun n : Network ℚ => n.order).toOption =
      some [2, 0, 1] := by
    rw [Network.ofText, NetworkDraft.read, hlines']
    decide +kernel
  have hd : (Distribution.ofText .default none .network text).toOption.map
      (fun d : Distribution ℚ => (d.catalog.placeValues, d.probs.take 2)) =
        some ([4, 2, 1], [357 / 1000, 63 / 1000]) := by
    rw [Distribution.ofText, Distribution.ofNetwork, Network.ofText, NetworkDraft.read, hlines]
    decide +kernel
  have hd' : (Distribution.ofText .default none .network text').toOption.map
      (fun d : Distribution ℚ => (d.catalog.placeValues, d.probs.take 2)) =
        some ([6, 2, 1], [357 / 1000, 12 / 1000]) := by
    rw [Distribution.ofText, Distribution.ofNetwork, Network.ofText, NetworkDraft.read, hlines']
    decide +kernel
  obtain ⟨n, hn, horder⟩ := bind_eq_ok.1 (toOption_eq_some.1 hn)
  obtain ⟨n', hn', horder'⟩ := bind_eq_ok.1 (toOption_eq_some.1 hn')
  obtain ⟨d, hd, hvalues⟩ := Option.map_eq_some_iff.1 hd
  obtain ⟨d', hd', hvalues'⟩ := Option.map_eq_some_iff.1 hd'
  have hd := toOption_eq_some.1 hd
  have hd' := toOption_eq_some.1 hd'
  obtain ⟨hplaces, hprobs⟩ := Prod.mk.inj hvalues
  obtain ⟨hplaces', hprobs'⟩ := Prod.mk.inj hvalues'
  exact ⟨hreordered, n, n', hn, horder, hn', horder', d, d', hd, hplaces, hprobs, hd', hplaces',
    hprobs', (same_answers hreordered .default).2 hd hd'⟩

end Reordered

end JointProb
