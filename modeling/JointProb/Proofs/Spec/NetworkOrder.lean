/-
  JointProb — networks in other orders and layouts.

      variables: Rain, Late, Wet        # weather
      Rain:                             variables: Rain, Late, Wet
      1: 0.3
      Late:                             Wet: Late, Rain
      1: 0.6                            11: 0.8
      Wet: Rain, Late                   10: 0.2   # late
      00: 0.1                           01: 0.7
      01: 0.2                           00: 0.1
      10: 0.7                           Late:
      11: 0.8                             1: 0.6
                                        Rain:
                                          1: 0.3

  The numbers of a block go to the places that their labels stand for before
  anything is added or multiplied, and the tables are multiplied in an order
  that depends on the variables only.  So rounding does not depend on the orders
  of the text.

  * `NetworkDraft.readLines_of_contents`: declarations declare the same in
    whatever lines;
  * `RearrangedText` says of two texts that they differ in the orders of the
    blocks, of the entries and of the parents, and in what stands around the
    lines;
  * `RearrangedText.exists_blocks`: so the blocks are the same in other orders;
    `NetworkDraft.exists_network_rearranged`: these describe the same network;
  * `Distribution.ofText_network_rearranged`: if one of the texts builds so does
    the other one, the same distribution, whatever numbers are computed with.
-/
import JointProb.Proofs.Spec.Layout
import JointProb.Proofs.Spec.LineOrder
import JointProb.Proofs.Spec.ReadAlike
import JointProb.Scalar.Binary64
import JointProb.Spec.Build

namespace JointProb

open Text

variable {α : Type} {vs : List Variable} {xs ys xs' : List BlockLines} {text text' : String}

/-! ## Declarations -/

namespace NetworkDraft

variable {d : NetworkDraft}

/-- **Declarations declare the same in whatever lines.** -/
theorem readLines_of_contents {ls ls' : List (ℕ × List Char)}
    (h : (empty.readLines ls : Except (SpecError α) NetworkDraft) = .ok d) (hd : d.blocks = [])
    (hls : ls'.map Prod.snd = ls.map Prod.snd) :
    (empty.readLines ls' : Except (SpecError α) NetworkDraft) = .ok d := by
  induction ls using List.reverseRecOn generalizing ls' d with
  | nil =>
    obtain rfl := List.map_eq_nil_iff.1 hls
    exact h
  | append_singleton ls l ih =>
    rw [List.map_append, List.map_singleton, List.map_eq_append_iff] at hls
    obtain ⟨ls', _, rfl, hfront, hlast⟩ := hls
    obtain ⟨l', rfl, hl'⟩ := List.map_eq_singleton_iff.1 hlast
    obtain ⟨d₁, hread, hline⟩ := readLines_concat_eq_ok_iff.1 h
    refine readLines_concat_eq_ok_iff.2 ⟨d₁, ?_⟩
    -- a line that does not declare anything leaves a block
    cases afterLine_of_readLine hline with
    | declared hdecl hnone _ _ =>
      exact ⟨ih hread hnone hfront, hl' ▸ readLine_of_declaration hdecl hline l'.1⟩
    | opened => cases hd
    | added => cases hd

end NetworkDraft

/-! ## Texts -/

/-- The same declarations, then the same blocks in another order, each with its
    parents and its entries in other orders, and the labels of an entry in the
    order of the parents; all with whatever blank lines, comments and blanks
    around the lines. -/
structure RearrangedText (vs : List Variable) (xs ys xs' : List BlockLines)
    (text text' : String) : Prop where
  parts : HasParts vs xs (Line.numbered text)
  isBlock : ∀ x ∈ xs, x.IsBlock vs
  lines : List.Forall₂ BlockLines.Rearranged xs ys
  blocks_perm : ys.Perm xs'
  layout : ∃ declarations,
    (Line.numbered text).map Prod.snd = declarations ++ xs.flatMap BlockLines.all ∧
      Line.Lays (declarations ++ xs'.flatMap BlockLines.all) (Text.lines text'.toList)
  plain : ∀ c ∈ xs'.flatMap BlockLines.all, Line.content? c = some c

namespace RearrangedText

/-- Every text that can be read has an order. -/
theorem exists_refl {d : NetworkDraft}
    (h : (NetworkDraft.read text : Except (SpecError ℚ) NetworkDraft) = .ok d) :
    ∃ xs, RearrangedText d.vars xs xs xs text text := by
  obtain ⟨xs, hparts, hblocks⟩ := exists_isBlock h
  have ⟨declared, lines, hnumbered, _, hlines⟩ := hparts
  have hcontents : (Line.numbered text).map Prod.snd =
      declared.map Prod.snd ++ xs.flatMap BlockLines.all := by
    rw [hnumbered, List.map_append, hlines]
  refine ⟨xs, hparts, hblocks, List.forall₂_same.2 fun x hx => .refl (hblocks x hx), .refl _,
    ⟨_, hcontents, hcontents ▸ Line.lays_lines text⟩, ?_⟩
  intro c hc
  have hmem : c ∈ (Line.numbered text).map Prod.snd := by
    rw [hcontents]
    exact List.mem_append_right _ hc
  exact Line.content?_of_mem_numbered hmem

/-- The other text has these parts. -/
theorem parts' (h : RearrangedText vs xs ys xs' text text') :
    HasParts vs xs' (Line.numbered text') := by
  obtain ⟨declared, lines, hnumbered, hdeclared, hlines⟩ := h.parts
  obtain ⟨declarations, hcontents, hlays⟩ := h.layout
  rw [hnumbered, List.map_append, hlines, List.append_cancel_right_eq] at hcontents
  have hself : ∀ c ∈ declarations ++ xs'.flatMap BlockLines.all, Line.content? c = some c := by
    refine List.forall_mem_append.2 ⟨fun c hc => ?_, h.plain⟩
    have hmem : c ∈ (Line.numbered text).map Prod.snd := by
      rw [hnumbered, List.map_append, hcontents]
      exact List.mem_append_left _ hc
    exact Line.content?_of_mem_numbered hmem
  obtain ⟨declared', lines', hnumbered', hdeclared', hlines'⟩ :=
    List.map_eq_append_iff.1 (hlays.map_snd_numbered hself)
  exact ⟨declared', lines', hnumbered',
    NetworkDraft.readLines_of_contents hdeclared rfl (hdeclared'.trans hcontents.symm), hlines'⟩

theorem isBlock' (h : RearrangedText vs xs ys xs' text text')
    (hid : ∀ v ∈ vs, isIdentifier v.name) : ∀ x ∈ xs', x.IsBlock vs := by
  intro y hy
  obtain ⟨x, hx, hxy⟩ := exists_left_of_forall₂ h.lines (h.blocks_perm.mem_iff.2 hy)
  exact hxy.isBlock hid (h.isBlock x hx)

/-- **The texts have the same blocks**, in other orders. -/
theorem exists_blocks (h : RearrangedText vs xs ys xs' text text') {bs bs' : List Block}
    (hbs : List.Forall₂ (BlockLines.Reads vs) xs bs)
    (hbs' : List.Forall₂ (BlockLines.Reads vs) xs' bs') :
    ∃ bs₁, List.Forall₂ Block.Rearranged bs bs₁ ∧ bs₁.Perm bs' := by
  obtain ⟨bs₁, hbs₁, hperm⟩ := List.perm_comp_forall₂ h.blocks_perm hbs'
  have hlines : List.Forall₂ (fun b y => ∀ b', BlockLines.Reads vs y b' → b.Rearranged b') bs ys :=
    forall₂_join hbs h.lines fun _ _ _ hx hxy _ hy => hxy.rearranged hx hy
  exact ⟨bs₁, forall₂_join hlines.flip hbs₁ fun _ _ _ hb => hb _, hperm⟩

end RearrangedText

/-! ## Networks -/

namespace NetworkDraft

variable {bs bs₁ bs' : List Block}

theorem map_child_eq (h : List.Forall₂ Block.Rearranged bs bs₁) :
    bs₁.map Block.child = bs.map Block.child := by
  rw [← List.forall₂_eq_eq_eq, List.forall₂_map_left_iff, List.forall₂_map_right_iff]
  exact h.flip.imp fun _ _ hb => hb.child_eq

variable [Scalar α]

/-- **Blocks in other orders describe the same network**, its tables in the
    orders of the parents. -/
theorem exists_network_rearranged (h : List.Forall₂ Block.Rearranged bs bs₁)
    (hperm : bs₁.Perm bs') {settings : Settings α} {n : Network α}
    (hn : network ⟨vs, bs.reverse⟩ settings = .ok n) :
    ∃ n', network ⟨vs, bs'.reverse⟩ settings = .ok n' ∧ n.Rearranged n' := by
  obtain ⟨hne, c, nodes, hc, hcheck, hnodes, hofNodes⟩ := network_eq_ok_iff.1 hn
  have hstep := (Catalog.ofVariables_eq_ok_iff.1 hc).2.1
  rw [List.reverse_reverse, mapM_eq_ok] at hnodes
  have hchildren : (bs'.map Block.child).Perm (bs.map Block.child) :=
    map_child_eq h ▸ (hperm.map Block.child).symm
  obtain ⟨nodes₁, hnodes₁, hrearranged⟩ :=
    exists_forall₂_join hnodes h fun _ _ _ hm hb => hb.exists_node hm
  obtain ⟨nodes', hnodes', hnodesPerm⟩ := List.perm_comp_forall₂ hperm.symm hnodes₁
  obtain ⟨n', hn', hsame⟩ :=
    Network.exists_ofNodes_rearranged hofNodes hrearranged hnodesPerm.symm
  refine ⟨n', network_eq_ok_iff.2 ⟨hne, c, nodes', hc, ?_, ?_, hn'⟩, hsame⟩
  · refine (checkBlocks_eq_ok_iff hstep).2 fun i hi => ?_
    obtain ⟨b, hb, hchild⟩ := (checkBlocks_eq_ok_iff hstep).1 hcheck i hi
    have hmem : i ∈ bs'.map Block.child :=
      hchildren.mem_iff.2 (hchild ▸ List.mem_map_of_mem (List.mem_reverse.1 hb))
    obtain ⟨b', hb', hchild'⟩ := List.mem_map.1 hmem
    exact ⟨b', List.mem_reverse.2 hb', hchild'⟩
  · rw [List.reverse_reverse, mapM_eq_ok]
    exact hnodes'

end NetworkDraft

namespace RearrangedText

variable [Scalar α]

/-- **The other text describes the same network**, its tables in the orders of
    the parents. -/
theorem exists_network (h : RearrangedText vs xs ys xs' text text') {settings : Settings α}
    {n : Network α} (hn : Network.ofText settings text = .ok n) :
    ∃ n', Network.ofText settings text' = .ok n' ∧ n.Rearranged n' := by
  obtain ⟨d, hread, hn⟩ := bind_eq_ok.1 hn
  obtain ⟨bs, rfl, hbs, hnodup⟩ :=
    h.parts.of_read h.isBlock (NetworkDraft.read_of_scalar hread)
  obtain ⟨-, c, -, hc, -⟩ := NetworkDraft.network_eq_ok_iff.1 hn
  obtain ⟨hvars, -, -, -, hid⟩ := Catalog.ofVariables_eq_ok_iff.1 hc
  have hid : ∀ v ∈ vs, isIdentifier v.name := fun v hv =>
    hid v.name (List.mem_map_of_mem (hvars ▸ hv))
  have hnodup' {bs' : List Block} (hbs' : List.Forall₂ (BlockLines.Reads vs) xs' bs') :
      (bs'.map Block.child).Nodup := by
    obtain ⟨bs₁, hbs₁, hperm⟩ := h.exists_blocks hbs hbs'
    rw [← (hperm.map Block.child).nodup_iff, NetworkDraft.map_child_eq hbs₁]
    exact hnodup
  obtain ⟨_, hblocks⟩ := exists_forall₂ (h.isBlock' hid)
  obtain ⟨bs', hread', hbs'⟩ := h.parts'.exists_read hblocks (hnodup' hblocks)
  obtain ⟨bs₁, hbs₁, hperm⟩ := h.exists_blocks hbs hbs'
  obtain ⟨n', hn', hrearranged⟩ := NetworkDraft.exists_network_rearranged hbs₁ hperm hn
  exact ⟨n', bind_eq_ok.2 ⟨_, NetworkDraft.read_of_scalar hread', hn'⟩, hrearranged⟩

end RearrangedText

/-- **The layout and the orders of a text do not matter.**  If a text builds, it
    has blocks, and it builds the same distribution in all other orders of the
    blocks, of their entries and of their parents. -/
theorem Distribution.ofText_network_rearranged [Scalar α] {settings : Settings α}
    {names : Option (List String)} {d : Distribution α}
    (hd : ofText settings names .network text = .ok d) :
    (∃ vs xs, RearrangedText vs xs xs xs text text) ∧
      ∀ {vs xs ys xs' text'}, RearrangedText vs xs ys xs' text text' →
        ofText settings names .network text' = .ok d := by
  obtain ⟨n, hn, hd⟩ := bind_eq_ok.1 hd
  obtain ⟨e, hexpand, hrename⟩ := bind_eq_ok.1 hd
  obtain ⟨draft, hread, hnetwork⟩ := bind_eq_ok.1 hn
  refine ⟨⟨_, RearrangedText.exists_refl (NetworkDraft.read_of_scalar hread)⟩, fun h => ?_⟩
  obtain ⟨n', hn', hrearranged⟩ := h.exists_network hn
  have hexpand' :=
    hrearranged.expand_eq_ok (NetworkDraft.wellFormed_of_network hnetwork) hexpand
  exact bind_eq_ok.2 ⟨n', hn', bind_eq_ok.2 ⟨e, hexpand', hrename⟩⟩

/-- Two blocks with their parents and their entries in other orders, one in
    shorthand and one in full notation, and the blocks the other way around, in
    numbers of 64 bits. -/
theorem Distribution.ofText_network_rearranged_weather :
    let vs : List Variable := ["Rain", "Late", "Wet", "Dry"].map .boolean
    let text := "variables: Rain, Late, Wet, Dry\nRain:\n1: 0.3\nLate:\n1: 0.6\n" ++
      "Wet: Rain, Late\n00: 0.1\n01: 0.2\n10: 0.7\n11: 0.8\nDry <- (Wet, Late)\n" ++
      "(0 | 0, 0): 0.1\n(1 | 0, 0): 0.9\n(0 | 0, 1): 0.3\n(1 | 0, 1): 0.7\n" ++
      "(0 | 1, 0): 1\n(1 | 1, 0): 0\n(0 | 1, 1): 1\n(1 | 1, 1): 0"
    let text' := "# weather\n\nvariables: Rain, Late, Wet, Dry\r\n" ++
      "Dry <- (Late, Wet)  # not wet\n" ++
      "  (1 | 1, 0): 0.7\n  (0 | 1, 0): 0.3\n  (0 | 1, 1): 1\n  (1 | 1, 1): 0\n" ++
      "  (0 | 0, 0): 0.1\n  (1 | 0, 0): 0.9\n  (0 | 0, 1): 1\n  (1 | 0, 1): 0\n" ++
      "Wet: Late, Rain\n11: 0.8\n10: 0.2   # late\n\n01: 0.7\n00: 0.1\nLate:\n\t1: 0.6\n" ++
      "Rain:\n\t1: 0.3"
    let rain : BlockLines := ⟨"Rain:".toList, ["1: 0.3".toList]⟩
    let late : BlockLines := ⟨"Late:".toList, ["1: 0.6".toList]⟩
    let wet : BlockLines := ⟨"Wet: Rain, Late".toList,
      ["00: 0.1", "01: 0.2", "10: 0.7", "11: 0.8"].map String.toList⟩
    let wet' : BlockLines := ⟨"Wet: Late, Rain".toList,
      ["11: 0.8", "10: 0.2", "01: 0.7", "00: 0.1"].map String.toList⟩
    let dry : BlockLines := ⟨"Dry <- (Wet, Late)".toList,
      ["(0 | 0, 0): 0.1", "(1 | 0, 0): 0.9", "(0 | 0, 1): 0.3", "(1 | 0, 1): 0.7",
        "(0 | 1, 0): 1", "(1 | 1, 0): 0", "(0 | 1, 1): 1", "(1 | 1, 1): 0"].map String.toList⟩
    let dry' : BlockLines := ⟨"Dry <- (Late, Wet)".toList,
      ["(1 | 1, 0): 0.7", "(0 | 1, 0): 0.3", "(0 | 1, 1): 1", "(1 | 1, 1): 0",
        "(0 | 0, 0): 0.1", "(1 | 0, 0): 0.9", "(0 | 0, 1): 1", "(1 | 0, 1): 0"].map String.toList⟩
    RearrangedText vs [rain, late, wet, dry] [rain, late, wet', dry'] [dry', wet', late, rain]
        text text' ∧
      ∃ d : Distribution Float, ofText .default none .network text = .ok d ∧
        d.probs.length = 16 ∧ ofText .default none .network text' = .ok d := by
  intro vs text text' rain late wet wet' dry dry'
  have hlines : Line.numbered text = (["variables: Rain, Late, Wet, Dry".toList].zipIdx 1).map
      Prod.swap ++ (([rain, late, wet, dry].flatMap BlockLines.all).zipIdx 2).map Prod.swap := by
    simp only [Line.numbered, text, String.toList_append]
    decide +kernel
  have hlines' : (Line.numbered text').map Prod.snd = ["variables: Rain, Late, Wet, Dry".toList] ++
      [dry', wet', late, rain].flatMap BlockLines.all := by
    simp only [Line.numbered, text', String.toList_append]
    decide +kernel
  have hrain : rain.IsBlock vs := ⟨⟨0, [], 0, [⟨0, "1".toList, "0.3".toList⟩]⟩, by decide +kernel⟩
  have hlate : late.IsBlock vs := ⟨⟨1, [], 0, [⟨0, "1".toList, "0.6".toList⟩]⟩, by decide +kernel⟩
  have hwet : wet.IsBlock vs := ⟨⟨2, [0, 1], 0, [⟨0, "00".toList, "0.1".toList⟩,
    ⟨0, "01".toList, "0.2".toList⟩, ⟨0, "10".toList, "0.7".toList⟩,
    ⟨0, "11".toList, "0.8".toList⟩]⟩, by decide +kernel⟩
  have hdry : dry.IsBlock vs := ⟨⟨3, [2, 1], 0, [⟨0, "(0 | 0, 0)".toList, "0.1".toList⟩,
    ⟨0, "(1 | 0, 0)".toList, "0.9".toList⟩, ⟨0, "(0 | 0, 1)".toList, "0.3".toList⟩,
    ⟨0, "(1 | 0, 1)".toList, "0.7".toList⟩, ⟨0, "(0 | 1, 0)".toList, "1".toList⟩,
    ⟨0, "(1 | 1, 0)".toList, "0".toList⟩, ⟨0, "(0 | 1, 1)".toList, "1".toList⟩,
    ⟨0, "(1 | 1, 1)".toList, "0".toList⟩]⟩, by decide +kernel⟩
  have hwet' : wet.Rearranged wet' :=
    ⟨⟨false, "Wet".toList, " Rain, Late".toList⟩, by decide +kernel,
      ⟨false, "Wet".toList, " Late, Rain".toList⟩, by decide +kernel, rfl, rfl, by decide +kernel,
      ["00: 0.1", "10: 0.2", "01: 0.7", "11: 0.8"].map String.toList, by decide +kernel,
      by decide +kernel⟩
  have hdry' : dry.Rearranged dry' :=
    ⟨⟨true, "Dry ".toList, " (Wet, Late)".toList⟩, by decide +kernel,
      ⟨true, "Dry ".toList, " (Late, Wet)".toList⟩, by decide +kernel, rfl, rfl, by decide +kernel,
      ["(0 | 0, 0): 0.1", "(1 | 0, 0): 0.9", "(0 | 1, 0): 0.3", "(1 | 1, 0): 0.7",
        "(0 | 0, 1): 1", "(1 | 0, 1): 0", "(0 | 1, 1): 1", "(1 | 1, 1): 0"].map String.toList,
      by decide +kernel, by decide +kernel⟩
  have hrearranged : RearrangedText vs [rain, late, wet, dry] [rain, late, wet', dry']
      [dry', wet', late, rain] text text' :=
    { parts := ⟨_, _, hlines, toOption_eq_some.1 (by decide +kernel), by decide +kernel⟩
      isBlock := List.forall_mem_cons.2 ⟨hrain, List.forall_mem_cons.2 ⟨hlate,
        List.forall_mem_cons.2 ⟨hwet, List.forall_mem_singleton.2 hdry⟩⟩⟩
      lines := .cons (.refl hrain) (.cons (.refl hlate) (.cons hwet' (.cons hdry' .nil)))
      blocks_perm := List.reverse_perm [dry', wet', late, rain]
      layout := ⟨["variables: Rain, Late, Wet, Dry".toList], by rw [hlines]; decide +kernel,
        hlines' ▸ Line.lays_lines text'⟩
      plain := by decide +kernel }
  have hd : ((ofText .default none .network text).toOption.map
      fun d : Distribution Float => d.probs.length) = some 16 := by
    rw [ofText, ofNetwork, Network.ofText, NetworkDraft.read, hlines]
    decide +kernel
  obtain ⟨d, hd, hlength⟩ := Option.map_eq_some_iff.1 hd
  have hd := toOption_eq_some.1 hd
  exact ⟨hrearranged, d, hd, hlength, (ofText_network_rearranged hd).2 hrearranged⟩

end JointProb
