/-
  JointProb — texts cut into tokens.

      P( A )  &            tokens at 0, 1, 3 and 5; `&` at 8 starts none

  * `Token.Scans` says which tokens the part of a text in front of a place is cut
    into: from each place on a blank is dropped, or the longest token is taken;
  * `Token.exists_scans`: this goes on to the end of the text, or to a place at
    which no token starts, and `Token.Scans.scanFrom_eq`: so does `scanFrom`;
  * `Token.Scans.read`: the part that is cut does not depend on what stands
    behind a blank after it; `Token.exists_scans_spaced`: texts of tokens with
    blanks between them are cut into these tokens;
  * `Token.Tokenizes` has what can be said of the tokens of a text,
    `Token.Untokenized` what can be said of a text that has none;
    `Token.tokenized`: one of them is true of each text.
-/
import JointProb.Proofs.Query.Longest
import JointProb.Proofs.Query.Shape
import Mathlib.Data.String.Basic

namespace JointProb.Token

/-! ## One token after the other -/

/-- From a position on, a text is cut into tokens up to another position, where
    the rest of it is left. -/
inductive Scans : Nat → List Char → List Token → Nat → List Char → Prop
  | done {n : Nat} {cs : List Char} : Scans n cs [] n cs
  | blank {n m : Nat} {c : Char} {cs rest : List Char} {ts : List Token} (hc : separates c)
      (h : Scans (n + c.utf8Size) cs ts m rest) : Scans n (c :: cs) ts m rest
  | token {n m : Nat} {k : TokenKind} {ds cs rest : List Char} {ts : List Token}
      (hk : IsLongest k ds (ds ++ cs)) (h : Scans (n + byteLength ds) cs ts m rest) :
      Scans n (ds ++ cs) (⟨k, String.ofList ds, n, n + byteLength ds⟩ :: ts) m rest

/-- A text that starts neither with a blank nor with a token. -/
def Stuck : List Char → Prop
  | [] => False
  | c :: cs => separates c = false ∧ StartsNone (c :: cs)

variable {n m l : Nat} {cs mid rest : List Char} {ts us : List Token}

/-- The token for the end of a text. -/
def ending (n : Nat) : Token := ⟨.ending, "", n, n⟩

theorem scanFrom_nil (n : Nat) : scanFrom n [] = .ok [ending n] := by
  rw [scanFrom, ending]

theorem scanFrom_of_isLongest {k : TokenKind} {ds : List Char} (h : IsLongest k ds (ds ++ cs))
    (n : Nat) : scanFrom n (ds ++ cs) = (scanFrom (n + byteLength ds) cs).map
      (⟨k, String.ofList ds, n, n + byteLength ds⟩ :: ·) := by
  obtain ⟨c, ds, rfl, hc⟩ := h.isLexeme.exists_cons
  rw [List.cons_append] at h ⊢
  rw [scanFrom_cons hc, lexeme?_eq_some_iff.2 h]
  simp only [← List.cons_append, List.drop_left]

theorem scanFrom_of_stuck {c : Char} (h : Stuck (c :: cs)) (n : Nat) :
    scanFrom n (c :: cs) = .error (.malformed n (.unexpectedCharacter c)) := by
  rw [scanFrom_cons h.1, lexeme?_eq_none_iff.2 h.2]

/-- **Scanning a text is scanning its parts.** -/
theorem Scans.scanFrom_eq (h : Scans n cs ts m rest) :
    scanFrom n cs = (scanFrom m rest).map (ts ++ ·) := by
  induction h with
  | @done n cs => cases scanFrom n cs <;> rfl
  | blank hc _ ih => rw [scanFrom_separator hc, ih]
  | @token n m k ds cs rest ts hk _ ih =>
    rw [scanFrom_of_isLongest hk, ih]
    cases scanFrom m rest <;> rfl

/-- **A text is cut into tokens up to its end**, or up to a place at which none
    starts. -/
theorem exists_scans (n : Nat) (cs : List Char) :
    ∃ ts m rest, Scans n cs ts m rest ∧ (rest = [] ∨ Stuck rest) := by
  induction n, cs using scanFrom.induct with
  | case1 n => exact ⟨[], n, [], .done, .inl rfl⟩
  | case2 n c cs hc ih =>
    obtain ⟨ts, m, rest, hscans, hrest⟩ := ih
    exact ⟨ts, m, rest, .blank hc hscans, hrest⟩
  | case3 n c cs hc hlex =>
    exact ⟨[], n, c :: cs, .done, .inr ⟨by simpa using hc, lexeme?_eq_none_iff.1 hlex⟩⟩
  | case4 n c cs hc k ds hlex _ stop ih =>
    have hk := lexeme?_eq_some_iff.1 hlex
    obtain ⟨cs', hcs⟩ := hk.starts
    rw [← hcs, List.drop_left] at ih
    rw [← hcs] at hk ⊢
    obtain ⟨ts, m, rest, hscans, hrest⟩ := ih
    exact ⟨_, m, rest, .token hk hscans, hrest⟩

theorem Scans.trans (h : Scans n cs ts m mid) (h' : Scans m mid us l rest) :
    Scans n cs (ts ++ us) l rest := by
  induction h with
  | done => exact h'
  | blank hc _ ih => exact .blank hc (ih h')
  | token hk _ ih => exact .token hk (ih h')

/-- A part of the tokens stands up to some place. -/
theorem Scans.exists_mid (h : Scans n cs (ts ++ us) l rest) :
    ∃ m mid, Scans n cs ts m mid ∧ Scans m mid us l rest := by
  generalize hall : ts ++ us = all at h
  induction h generalizing ts with
  | done =>
    obtain ⟨rfl, rfl⟩ := List.append_eq_nil_iff.1 hall
    exact ⟨_, _, .done, .done⟩
  | blank hc _ ih =>
    obtain ⟨m, mid, hts, hus⟩ := ih hall
    exact ⟨m, mid, .blank hc hts, hus⟩
  | token hk h ih =>
    cases ts with
    | nil =>
      obtain rfl : us = _ := hall
      exact ⟨_, _, .done, .token hk h⟩
    | cons t ts =>
      obtain ⟨rfl, hrest⟩ := List.cons.inj hall
      obtain ⟨m, mid, hts, hus⟩ := ih hrest
      exact ⟨m, mid, .token hk hts, hus⟩

/-- The next token stands behind blanks. -/
theorem Scans.exists_start {t : Token} (h : Scans n cs (t :: ts) m rest) :
    ∃ mid, Scans n cs [] t.start mid ∧ Scans t.start mid (t :: ts) m rest := by
  generalize hall : t :: ts = all at h
  induction h with
  | done => cases hall
  | blank hc _ ih =>
    obtain ⟨mid, hblanks, hscans⟩ := ih hall
    exact ⟨mid, .blank hc hblanks, hscans⟩
  | token hk h =>
    cases hall
    exact ⟨_, .done, .token hk h⟩

/-- **The part that is cut does not depend on what stands behind a blank.** -/
theorem Scans.read (h : Scans n cs ts m rest) : ∃ front, cs = front ++ rest ∧
    m = n + byteLength front ∧
    ∀ back, (∀ c ∈ back.head?, separates c) → Scans n (front ++ back) ts m back := by
  induction h with
  | done => exact ⟨[], rfl, rfl, fun back _ => .done⟩
  | @blank n m c cs rest ts hc _ ih =>
    obtain ⟨front, rfl, rfl, hback⟩ := ih
    refine ⟨c :: front, rfl, by rw [byteLength, Nat.add_assoc], fun back hb => ?_⟩
    exact .blank hc (hback back hb)
  | @token n m k ds cs rest ts hk _ ih =>
    obtain ⟨front, rfl, rfl, hback⟩ := ih
    refine ⟨ds ++ front, (List.append_assoc ..).symm, ?_, fun back hb => ?_⟩
    · rw [byteLength_append, Nat.add_assoc]
    · rw [List.append_assoc]
      exact .token (hk.cut hb) (hback back hb)

theorem Scans.le (h : Scans n cs ts m rest) : n ≤ m := by
  obtain ⟨front, -, rfl, -⟩ := h.read
  exact Nat.le_add_right _ _

/-! ## Texts of tokens with blanks between them -/

/-- The text of a token is cut into it in front of a blank, and the empty text
    into nothing. -/
theorem exists_scans_text {p : TokenKind × List Char} (h : p.2 = [] ∨ IsLexeme p.1 p.2)
    (rest : List Char) (hrest : ∀ c ∈ rest.head?, separates c) (n : Nat) :
    ∃ ts, Scans n (p.2 ++ rest) ts (n + byteLength p.2) rest ∧
      ts.map shape = [p].filter fun p => p.2 ≠ [] := by
  obtain ⟨k, ds⟩ := p
  rcases h with rfl | hlexeme
  · exact ⟨[], .done, rfl⟩
  · have hends : Ends k rest := by
      cases rest with
      | nil => exact ends_nil k
      | cons c rest => exact ends_of_separates (hrest c rfl) rest k
    obtain ⟨c, cs, rfl, -⟩ := hlexeme.exists_cons
    have hk := lexeme?_eq_some_iff.1 (lexeme?_append hlexeme hends)
    exact ⟨_, .token hk .done, by simp [shape]⟩

/-- **Texts of tokens with blanks between them** are cut into these tokens. -/
theorem exists_scans_spaced {ps : List (TokenKind × List Char)}
    (h : ∀ p ∈ ps, p.2 = [] ∨ IsLexeme p.1 p.2) (n : Nat) :
    ∃ ts m, Scans n ([' '].intercalate (ps.map Prod.snd)) ts m [] ∧
      ts.map shape = ps.filter fun p => p.2 ≠ [] := by
  induction ps generalizing n with
  | nil => exact ⟨[], n, .done, rfl⟩
  | cons p ps ih =>
    obtain ⟨hp, hps⟩ := List.forall_mem_cons.1 h
    cases ps with
    | nil =>
      obtain ⟨ts, hts, hshape⟩ := exists_scans_text hp [] (by simp) n
      rw [List.append_nil] at hts
      rw [List.map_singleton, List.intercalate_singleton]
      exact ⟨ts, _, hts, hshape⟩
    | cons q ps =>
      obtain ⟨us, m, hus, hrest⟩ := ih hps (n + byteLength p.2 + ' '.utf8Size)
      obtain ⟨ts, hts, hshape⟩ := exists_scans_text hp
        (' ' :: [' '].intercalate ((q :: ps).map Prod.snd)) (by simp [separates]) n
      have hcut := hts.trans (.blank rfl hus)
      rw [List.map_cons, List.map_cons, List.intercalate_cons_cons, List.append_assoc]
      refine ⟨ts ++ us, m, hcut, ?_⟩
      rw [List.map_append, hshape, hrest, ← List.filter_append, List.singleton_append]

/-! ## Where tokens stand -/

/-- A token stands at its place in a text, as the longest one there. -/
structure StandsIn (n : Nat) (cs : List Char) (t : Token) : Prop where
  exists_place : ∃ front back, cs = front ++ (t.text.toList ++ back) ∧
    t.start = n + byteLength front ∧ t.stop = t.start + byteLength t.text.toList ∧
    IsLongest t.kind t.text.toList (t.text.toList ++ back)

theorem StandsIn.append {t : Token} (front : List Char)
    (h : StandsIn (n + byteLength front) cs t) : StandsIn n (front ++ cs) t := by
  obtain ⟨before, back, rfl, hstart, hstop, hlongest⟩ := h.exists_place
  refine ⟨front ++ before, back, (List.append_assoc ..).symm, ?_, hstop, hlongest⟩
  rw [hstart, byteLength_append, Nat.add_assoc]

theorem Scans.standsIn (h : Scans n cs ts m rest) : ∀ t ∈ ts, StandsIn n cs t := by
  induction h with
  | done => simp
  | @blank n m c cs rest ts _ _ ih =>
    exact fun t ht => StandsIn.append [c] (ih t ht)
  | @token n m k ds cs rest ts hk _ ih =>
    refine List.forall_mem_cons.2 ⟨⟨[], cs, ?_, rfl, ?_, ?_⟩, fun t ht => (ih t ht).append ds⟩
    · simp
    · simp
    · simpa using hk

theorem Scans.isLexeme (h : Scans n cs ts m rest) :
    ∀ t ∈ ts, IsLexeme t.kind t.text.toList := by
  intro t ht
  obtain ⟨_, _, -, -, -, hlongest⟩ := (h.standsIn t ht).exists_place
  exact hlongest.isLexeme

/-- Tokens stand between the two places, and none is empty. -/
theorem Scans.bounds (h : Scans n cs ts m rest) :
    ∀ t ∈ ts, n ≤ t.start ∧ t.start < t.stop ∧ t.stop ≤ m := by
  induction h with
  | done => simp
  | blank _ _ ih =>
    intro t ht
    obtain ⟨hstart, hstop⟩ := ih t ht
    exact ⟨(Nat.le_add_right _ _).trans hstart, hstop⟩
  | @token n m k ds cs rest ts hk h ih =>
    have hpos : 0 < byteLength ds := by
      obtain ⟨c, ds, rfl, -⟩ := hk.isLexeme.exists_cons
      exact Nat.add_pos_left c.utf8Size_pos _
    refine List.forall_mem_cons.2 ⟨⟨le_rfl, Nat.lt_add_of_pos_right hpos, h.le⟩, fun t ht => ?_⟩
    obtain ⟨hstart, hstop⟩ := ih t ht
    exact ⟨(Nat.le_add_right _ _).trans hstart, hstop⟩

/-- **Tokens stand one behind the other.** -/
theorem Scans.pairwise (h : Scans n cs ts m rest) :
    ts.Pairwise fun t u => t.stop ≤ u.start := by
  induction h with
  | done => exact .nil
  | blank _ _ ih => exact ih
  | token hk h ih => exact .cons (fun u hu => (h.bounds u hu).1) ih

/-- **What stands in no token is a blank.** -/
theorem Scans.covers (h : Scans n cs ts m []) {front back : List Char} {c : Char}
    (hcs : cs = front ++ c :: back) :
    separates c ∨ ∃ t ∈ ts, t.start ≤ n + byteLength front ∧ n + byteLength front < t.stop := by
  generalize hrest : ([] : List Char) = rest at h
  induction h generalizing front with
  | done => simp [← hrest] at hcs
  | @blank n m d cs rest ts hd _ ih =>
    cases front with
    | nil =>
      obtain ⟨rfl, -⟩ := List.cons.inj hcs
      exact .inl hd
    | cons e front =>
      obtain ⟨rfl, htail⟩ := List.cons.inj hcs
      rw [byteLength, ← Nat.add_assoc]
      exact ih htail hrest
  | @token n m k ds cs rest ts hk _ ih =>
    rcases List.append_eq_append_iff.1 hcs with ⟨front', rfl, hcs'⟩ | ⟨more, rfl, hcs'⟩
    · obtain hblank | ⟨t, ht, hplace⟩ := ih hcs' hrest
      · exact .inl hblank
      · refine .inr ⟨t, List.mem_cons_of_mem _ ht, ?_⟩
        rwa [byteLength_append, ← Nat.add_assoc]
    · cases more with
      | nil =>
        have hnil : cs = [] ++ c :: back := hcs'.symm
        obtain hblank | ⟨t, ht, hplace⟩ := ih hnil hrest
        · exact .inl hblank
        · refine .inr ⟨t, List.mem_cons_of_mem _ ht, ?_⟩
          simpa [byteLength] using hplace
      | cons e more =>
        refine .inr ⟨_, List.mem_cons_self, Nat.le_add_right _ _, ?_⟩
        have hpos := e.utf8Size_pos
        simp only [byteLength_append, byteLength]
        omega

/-! ## Texts that are cut up to their end -/

theorem byteLength_eq (cs : List Char) : byteLength cs = String.utf8Len cs := by
  induction cs with
  | nil => rfl
  | cons c cs ih => rw [byteLength, ih, String.utf8Len_cons, Nat.add_comm]

theorem byteLength_toList (s : String) : byteLength s.toList = s.utf8ByteSize := by
  rw [byteLength_eq, String.utf8Len_toList]

/-- The part of a text from the start of a token to its end is its text. -/
theorem StandsIn.extract {source : String} {t : Token} (h : StandsIn 0 source.toList t) :
    String.Pos.Raw.extract source ⟨t.start⟩ ⟨t.stop⟩ = t.text := by
  obtain ⟨front, back, hsource, hstart, hstop, -⟩ := h.exists_place
  rw [← String.ofList_toList (s := source), hsource, hstop, hstart, Nat.zero_add, byteLength_eq,
    byteLength_eq, ← List.append_assoc, String.extract_of_valid, String.ofList_toList]

/-- What the tokens of a text are. -/
structure Tokenizes (source : String) (ts : List Token) : Prop where
  /-- One stands behind the other, and only the last one is empty. -/
  ordered : ts.Pairwise fun t u => t.start < t.stop ∧ t.stop ≤ u.start
  /-- The text of a token is what stands between its two places. -/
  slice : ∀ t ∈ ts, String.Pos.Raw.extract source ⟨t.start⟩ ⟨t.stop⟩ = t.text
  /-- The last token is the end of the text, where no other one is an end. -/
  ends : ∃ us, ts = us ++ [ending source.utf8ByteSize] ∧ ∀ t ∈ us, t.kind ≠ .ending
  /-- Each of the others is the longest token that starts at its place. -/
  longest : ∀ t ∈ ts, t.kind ≠ .ending → StandsIn 0 source.toList t
  /-- What stands in no token is a blank, a tab or a line end. -/
  gaps {front back : List Char} {c : Char} (h : source.toList = front ++ c :: back) :
    c ∈ [' ', '\t', '\r', '\n'] ∨
      ∃ t ∈ ts, t.start ≤ byteLength front ∧ byteLength front < t.stop
  /-- With blanks between them, the texts of the tokens are cut into the same
      tokens, also without the empty one of the end. -/
  rescan {us : List Token} (h : us = ts ∨ us = ts.dropLast) :
    ∃ vs, scan (" ".intercalate (us.map text)) = .ok vs ∧ Alike vs ts

theorem scan_of_scans {source : String} (h : Scans 0 source.toList ts m []) :
    scan source = .ok (ts ++ [ending m]) := by
  rw [scan, h.scanFrom_eq, scanFrom_nil]
  rfl

theorem exists_scans_of_scan {source : String} (h : scan source = .ok ts) :
    ∃ us m, ts = us ++ [ending m] ∧ Scans 0 source.toList us m [] := by
  obtain ⟨us, m, rest, hus, rfl | hstuck⟩ := exists_scans 0 source.toList
  · rw [scan_of_scans hus] at h
    cases h
    exact ⟨us, m, rfl, hus⟩
  · cases rest with
    | nil => exact hstuck.elim
    | cons c rest =>
      rw [scan, hus.scanFrom_eq, scanFrom_of_stuck hstuck] at h
      cases h

/-- The end of a text stands at its length. -/
theorem Scans.eq_utf8ByteSize {source : String} (h : Scans 0 source.toList ts m []) :
    m = source.utf8ByteSize := by
  obtain ⟨front, hfront, rfl, -⟩ := h.read
  rw [Nat.zero_add, ← byteLength_toList, hfront, List.append_nil]

theorem filter_map_shape (hts : ∀ t ∈ ts, IsLexeme t.kind t.text.toList) :
    (ts.map shape).filter (fun p => p.2 ≠ []) = ts.map shape := by
  rw [List.filter_eq_self, List.forall_mem_map]
  intro t ht
  obtain ⟨c, cs, hcs, -⟩ := (hts t ht).exists_cons
  simp [shape, hcs]

/-- Texts of tokens with blanks between them, perhaps with one behind them, have
    these tokens and an end. -/
theorem exists_scan_spaced (hts : ∀ t ∈ ts, IsLexeme t.kind t.text.toList)
    (hus : us = ts ++ [ending n] ∨ us = ts) :
    ∃ vs, scan (" ".intercalate (us.map text)) = .ok vs ∧ Alike vs (ts ++ [ending n]) := by
  have hfilter : (us.map shape).filter (fun p => p.2 ≠ []) = ts.map shape := by
    rcases hus with rfl | rfl
    · rw [List.map_append, List.filter_append, filter_map_shape hts]
      simp [shape, ending]
    · exact filter_map_shape hts
  have htexts : (" ".intercalate (us.map text)).toList =
      [' '].intercalate ((us.map shape).map Prod.snd) := by
    rw [String.toList_intercalate, List.map_map, List.map_map]
    rfl
  have hlexemes : ∀ p ∈ us.map shape, p.2 = [] ∨ IsLexeme p.1 p.2 := by
    rw [List.forall_mem_map]
    intro t ht
    rcases hus with rfl | rfl
    · rcases List.mem_append.1 ht with ht | ht
      · exact .inr (hts t ht)
      · obtain rfl := List.mem_singleton.1 ht
        exact .inl rfl
    · exact .inr (hts t ht)
  obtain ⟨vs, m, hvs, hshape⟩ := exists_scans_spaced hlexemes 0
  rw [← htexts] at hvs
  refine ⟨_, scan_of_scans hvs, ?_⟩
  rw [Alike, List.map_append, List.map_append, hshape, hfilter]
  rfl

theorem Scans.tokenizes {source : String} (h : Scans 0 source.toList ts m []) :
    Tokenizes source (ts ++ [ending m]) := by
  obtain rfl := h.eq_utf8ByteSize
  refine ⟨?_, ?_, ⟨ts, rfl, fun t ht => (h.isLexeme t ht).ne_ending⟩, ?_, ?_, ?_⟩
  · rw [List.pairwise_append]
    refine ⟨h.pairwise.imp_of_mem fun ht _ hle => ⟨(h.bounds _ ht).2.1, hle⟩, by simp, ?_⟩
    simpa [ending] using fun t ht => (h.bounds t ht).2
  · rw [List.forall_mem_append]
    refine ⟨fun t ht => (h.standsIn t ht).extract, ?_⟩
    simp [ending, String.Pos.Raw.extract]
  · rw [List.forall_mem_append]
    exact ⟨fun t ht _ => h.standsIn t ht, by simp [ending]⟩
  · intro front back c hsource
    obtain hblank | ⟨t, ht, hplace⟩ := h.covers hsource
    · refine .inl ?_
      simpa [separates, or_assoc] using hblank
    · rw [Nat.zero_add] at hplace
      exact .inr ⟨t, List.mem_append_left _ ht, hplace⟩
  · intro us hus
    rw [List.dropLast_concat] at hus
    exact exists_scan_spaced h.isLexeme hus

/-! ## Texts that are not -/

/-- What is wrong with a text that is not cut up to its end: after whole tokens
    and blanks, a character stands at a place where no token starts, and no
    other such place is reached. -/
def Untokenized (source : String) (e : QueryError) : Prop :=
  ∃ front c back, source.toList = front ++ c :: back ∧
    e = .malformed (byteLength front) (.unexpectedCharacter c) ∧ Stuck (c :: back) ∧
    (∃ ts, Scans 0 source.toList ts (byteLength front) (c :: back)) ∧
    ∀ ts n rest, Scans 0 source.toList ts n rest →
      n ≤ byteLength front ∧ (Stuck rest → n = byteLength front)

theorem Scans.untokenized {source : String} {c : Char} (h : Scans 0 source.toList ts m (c :: cs))
    (hstuck : Stuck (c :: cs)) : Untokenized source (.malformed m (.unexpectedCharacter c)) := by
  obtain ⟨front, hfront, rfl, -⟩ := h.read
  rw [Nat.zero_add] at h ⊢
  have hscan := h.scanFrom_eq
  rw [scanFrom_of_stuck hstuck] at hscan
  refine ⟨front, c, cs, hfront, rfl, hstuck, ⟨ts, h⟩, fun us n rest hscans => ?_⟩
  -- a place where none starts is the one that the scan stops at
  have hfirst {vs : List Token} {l : Nat} {back : List Char}
      (h' : Scans 0 source.toList vs l back) (hback : Stuck back) : l = byteLength front := by
    cases back with
    | nil => exact hback.elim
    | cons d back =>
      rw [h'.scanFrom_eq, scanFrom_of_stuck hback] at hscan
      cases hscan
      rfl
  refine ⟨?_, hfirst hscans⟩
  obtain ⟨vs, l, back, hon, rfl | hback⟩ := exists_scans n rest
  · rw [(hscans.trans hon).scanFrom_eq, scanFrom_nil] at hscan
    cases hscan
  · exact hfirst (hscans.trans hon) hback ▸ hon.le

/-- **The tokens of a text** stand one behind the other with blanks between them,
    each is the longest one at its place, and they are the tokens of their texts;
    or the text has a first place where none starts. -/
theorem tokenized (source : String) :
    JointProb.Ends (Untokenized source) (Tokenizes source) (scan source) := by
  obtain ⟨ts, m, rest, h, rfl | hstuck⟩ := exists_scans 0 source.toList
  · rw [scan_of_scans h]
    exact h.tokenizes
  · cases rest with
    | nil => exact hstuck.elim
    | cons c rest =>
      rw [scan, h.scanFrom_eq, scanFrom_of_stuck hstuck]
      exact h.untokenized hstuck

end JointProb.Token
