/-
  JointProb — tokens without their places.

  * `Token.shape` is what a token is, wherever it stands, and `Token.Alike` holds
    of tokens that are the same;
  * `Grammar.DerivesQuery.alike`: the grammar does not see the places of tokens.
-/
import JointProb.Proofs.Query.Grammar

namespace JointProb

namespace Token

variable {us ts vs : List Token} {t u : Token}

/-- A token without its place. -/
def shape (t : Token) : TokenKind × List Char := (t.kind, t.text.toList)

theorem shape_eq_iff : shape t = shape u ↔ t.kind = u.kind ∧ t.text = u.text := by
  rw [shape, shape, Prod.mk.injEq, String.toList_inj]

/-- The same tokens, perhaps at other places. -/
def Alike (us ts : List Token) : Prop := us.map shape = ts.map shape

theorem alike_nil_iff : Alike us [] ↔ us = [] := List.map_eq_nil_iff

theorem alike_cons_iff : Alike us (t :: ts) ↔ ∃ t' ts', us = t' :: ts' ∧
    (t'.kind = t.kind ∧ t'.text = t.text) ∧ Alike ts' ts := by
  simp only [Alike, List.map_cons, List.map_eq_cons_iff, shape_eq_iff]

theorem alike_append_iff : Alike us (ts ++ vs) ↔ ∃ ts' vs', us = ts' ++ vs' ∧ Alike ts' ts ∧
    Alike vs' vs := by
  simp only [Alike, List.map_append, List.map_eq_append_iff]

end Token

namespace Grammar

open Token (Alike alike_nil_iff alike_cons_iff alike_append_iff)

variable {ts us : List Token}

theorem Mention.alike {n : Token} {negated : Bool} (h : Mention ts n negated)
    (hus : Alike us ts) : ∃ m, Mention us m negated := by
  cases h with
  | plain hn =>
    simp only [alike_cons_iff, alike_nil_iff] at hus
    obtain ⟨m, _, rfl, ⟨hm, -⟩, rfl⟩ := hus
    exact ⟨m, .plain (hm.trans hn)⟩
  | tilde ht hn =>
    simp only [alike_cons_iff, alike_nil_iff] at hus
    obtain ⟨t, _, rfl, ⟨ht', -⟩, m, _, rfl, ⟨hm, -⟩, rfl⟩ := hus
    exact ⟨m, .tilde (ht'.trans ht) (hm.trans hn)⟩
  | tildeParens ht ho hn hc =>
    simp only [alike_cons_iff, alike_nil_iff] at hus
    obtain ⟨t, _, rfl, ⟨ht', -⟩, o, _, rfl, ⟨ho', -⟩, m, _, rfl, ⟨hm, -⟩, c, _, rfl, ⟨hc', -⟩,
      rfl⟩ := hus
    exact ⟨m, .tildeParens (ht'.trans ht) (ho'.trans ho) (hm.trans hn) (hc'.trans hc)⟩
  | not hk hnot ho hn hc =>
    simp only [alike_cons_iff, alike_nil_iff] at hus
    obtain ⟨k, _, rfl, ⟨hk', hnot'⟩, o, _, rfl, ⟨ho', -⟩, m, _, rfl, ⟨hm, -⟩, c, _, rfl, ⟨hc', -⟩,
      rfl⟩ := hus
    exact ⟨m, .not (hk'.trans hk) (hnot'.trans hnot) (ho'.trans ho) (hm.trans hn) (hc'.trans hc)⟩

theorem State.alike {state : Option String} (h : State ts state)
    (hus : Alike us ts) : State us state := by
  cases h with
  | absent =>
    exact alike_nil_iff.1 hus ▸ .absent
  | stated he hs =>
    simp only [alike_cons_iff, alike_nil_iff] at hus
    obtain ⟨e, _, rfl, ⟨he', -⟩, s, _, rfl, ⟨hs', htext⟩, rfl⟩ := hus
    exact htext ▸ .stated (he'.trans he) (hs' ▸ hs)

theorem Spec.alike {s : VarSpec} (h : Spec ts s) (hus : Alike us ts) :
    ∃ s', Spec us s' := by
  obtain ⟨hn, hs⟩ := h
  obtain ⟨ts', vs', rfl, hts', hvs'⟩ := alike_append_iff.1 hus
  obtain ⟨m, hm⟩ := hn.alike hts'
  exact ⟨_, .mk hm (hs.alike hvs')⟩

theorem Specs.alike {ss : List VarSpec} (h : Specs ts ss) (hus : Alike us ts) :
    ∃ ss', Specs us ss' := by
  induction h generalizing us with
  | one h =>
    obtain ⟨s, hs⟩ := h.alike hus
    exact ⟨[s], .one hs⟩
  | more h hc _ ih =>
    obtain ⟨ts', ws, rfl, hts', hws⟩ := alike_append_iff.1 hus
    obtain ⟨c', vs', rfl, ⟨hc', -⟩, hvs'⟩ := alike_cons_iff.1 hws
    obtain ⟨s, hs⟩ := h.alike hts'
    obtain ⟨ss, hss⟩ := ih hvs'
    exact ⟨s :: ss, .more hs (hc'.trans hc) hss⟩

theorem Conditions.alike {ss : List VarSpec} (h : Conditions ts ss)
    (hus : Alike us ts) : ∃ ss', Conditions us ss' := by
  cases h with
  | absent =>
    exact ⟨[], alike_nil_iff.1 hus ▸ .absent⟩
  | given hb hs =>
    obtain ⟨b', ts', rfl, ⟨hb', -⟩, hts'⟩ := alike_cons_iff.1 hus
    obtain ⟨ss, hss⟩ := hs.alike hts'
    exact ⟨ss, .given (hb'.trans hb) hss⟩

theorem Derives.alike {level : Level} {x : Expr String} (h : Derives level ts x)
    (hus : Alike us ts) : ∃ y, Derives level us y := by
  induction h generalizing us with
  | term _ ih =>
    obtain ⟨y, hy⟩ := ih hus
    exact ⟨y, .term hy⟩
  | unary _ ih =>
    obtain ⟨y, hy⟩ := ih hus
    exact ⟨y, .unary hy⟩
  | primary _ ih =>
    obtain ⟨y, hy⟩ := ih hus
    exact ⟨y, .primary hy⟩
  | sum _ ho _ ihx ihy =>
    obtain ⟨ts', ws, rfl, hts', hws⟩ := alike_append_iff.1 hus
    obtain ⟨o', vs', rfl, ⟨ho', -⟩, hvs'⟩ := alike_cons_iff.1 hws
    obtain ⟨x, hx⟩ := ihx hts'
    obtain ⟨y, hy⟩ := ihy hvs'
    exact ⟨_, .sum hx (ho' ▸ ho) hy⟩
  | product _ ho _ ihx ihy =>
    obtain ⟨ts', ws, rfl, hts', hws⟩ := alike_append_iff.1 hus
    obtain ⟨o', vs', rfl, ⟨ho', -⟩, hvs'⟩ := alike_cons_iff.1 hws
    obtain ⟨x, hx⟩ := ihx hts'
    obtain ⟨y, hy⟩ := ihy hvs'
    exact ⟨_, .product hx (ho' ▸ ho) hy⟩
  | minus ht _ ih =>
    obtain ⟨t', ts', rfl, ⟨ht', -⟩, hts'⟩ := alike_cons_iff.1 hus
    obtain ⟨y, hy⟩ := ih hts'
    exact ⟨_, .minus (ht'.trans ht) hy⟩
  | plus ht _ ih =>
    obtain ⟨t', ts', rfl, ⟨ht', -⟩, hts'⟩ := alike_cons_iff.1 hus
    obtain ⟨y, hy⟩ := ih hts'
    exact ⟨_, .plus (ht'.trans ht) hy⟩
  | number ht =>
    simp only [alike_cons_iff, alike_nil_iff] at hus
    obtain ⟨t, _, rfl, ⟨ht', -⟩, rfl⟩ := hus
    exact ⟨_, .number (ht'.trans ht)⟩
  | parens ho _ hc ih =>
    obtain ⟨o', ws, rfl, ⟨ho', -⟩, hws⟩ := alike_cons_iff.1 hus
    obtain ⟨ts', cs, rfl, hts', hcs⟩ := alike_append_iff.1 hws
    obtain ⟨c', _, rfl, ⟨hc', -⟩, hnil⟩ := alike_cons_iff.1 hcs
    obtain rfl := alike_nil_iff.1 hnil
    obtain ⟨y, hy⟩ := ih hts'
    exact ⟨y, .parens (ho'.trans ho) hy (hc'.trans hc)⟩
  | probability hp htext ho ht hu hc =>
    obtain ⟨p', ws, rfl, ⟨hp', htext'⟩, hws⟩ := alike_cons_iff.1 hus
    obtain ⟨o', xs, rfl, ⟨ho', -⟩, hxs⟩ := alike_cons_iff.1 hws
    obtain ⟨ts', ys, rfl, hts', hys⟩ := alike_append_iff.1 hxs
    obtain ⟨us', cs, rfl, hus', hcs⟩ := alike_append_iff.1 hys
    obtain ⟨c', _, rfl, ⟨hc', -⟩, hnil⟩ := alike_cons_iff.1 hcs
    obtain rfl := alike_nil_iff.1 hnil
    obtain ⟨targets, htargets⟩ := ht.alike hts'
    obtain ⟨given, hgiven⟩ := hu.alike hus'
    exact ⟨_, .probability (hp'.trans hp) (htext'.trans htext) (ho'.trans ho) htargets hgiven
      (hc'.trans hc)⟩

/-- **The grammar does not see the places of tokens.** -/
theorem DerivesQuery.alike {x : Expr String} (h : DerivesQuery ts x)
    (hus : Alike us ts) : ∃ y, DerivesQuery us y := by
  cases h with
  | independence hk htext ho ha hm hb hc =>
    simp only [alike_cons_iff, alike_nil_iff] at hus
    obtain ⟨k, _, rfl, ⟨hk', htext'⟩, o, _, rfl, ⟨ho', -⟩, a, _, rfl, ⟨ha', -⟩, m, _, rfl, ⟨hm', -⟩,
      b, _, rfl, ⟨hb', -⟩, c, _, rfl, ⟨hc', -⟩, rfl⟩ := hus
    exact ⟨_, .independence (hk'.trans hk) (htext'.trans htext) (ho'.trans ho) (ha'.trans ha)
      (hm'.trans hm) (hb'.trans hb) (hc'.trans hc)⟩
  | condIndependence hk htext ho ha hm hb hr hg hc =>
    simp only [alike_cons_iff, alike_nil_iff] at hus
    obtain ⟨k, _, rfl, ⟨hk', htext'⟩, o, _, rfl, ⟨ho', -⟩, a, _, rfl, ⟨ha', -⟩, m, _, rfl, ⟨hm', -⟩,
      b, _, rfl, ⟨hb', -⟩, r, _, rfl, ⟨hr', -⟩, g, _, rfl, ⟨hg', -⟩, c, _, rfl, ⟨hc', -⟩,
      rfl⟩ := hus
    exact ⟨_, .condIndependence (hk'.trans hk) (htext'.trans htext) (ho'.trans ho) (ha'.trans ha)
      (hm'.trans hm) (hb'.trans hb) (hr'.trans hr) (hg'.trans hg) (hc'.trans hc)⟩
  | expr h =>
    obtain ⟨y, hy⟩ := h.alike hus
    exact ⟨y, .expr hy⟩

end Grammar

end JointProb
