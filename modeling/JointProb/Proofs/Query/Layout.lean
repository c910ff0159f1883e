/-
  JointProb — queries laid out with blanks.

  * `Token.layout` writes pieces one after the other, with blanks as one
    likes, and `Token.places` says where each of them starts;
  * `Grammar.DerivesQuery.sealed`: in a query no two names or numbers stand
    side by side, and no two stars, so that no blanks are needed;
  * `Token.scanFrom_layout`: what is laid out is scanned.
-/
import JointProb.Proofs.Query.Grammar
import JointProb.Proofs.Query.Token
import Mathlib.Data.List.Chain

namespace JointProb

/-! ## Tokens that need no blanks between them -/

/-- Whether tokens of a kind are made of letters and digits. -/
def TokenKind.isWord : TokenKind → Bool
  | .name | .number => true
  | _ => false

namespace Grammar

/-- Tokens of these kinds may stand side by side. -/
def Apart (j k : TokenKind) : Prop := ¬ (j.isWord ∧ k.isWord) ∧ ¬ (j = .star ∧ k = .star)

theorem apart_of_mark {j k : TokenKind} (hk : k.isWord = false) (h : j ≠ .star) : Apart j k :=
  ⟨fun hword => by simp [hk] at hword, fun hstar => h hstar.1⟩

theorem apart_of_mark_left {j k : TokenKind} (hj : j.isWord = false) (h : k ≠ .star) : Apart j k :=
  ⟨fun hword => by simp [hj] at hword, fun hstar => h hstar.2⟩

/-- Tokens that may stand side by side, with no star at their ends. -/
structure Sealed (ts : List Token) : Prop where
  chain : ts.IsChain fun t u => Apart t.kind u.kind
  head : ∀ t ∈ ts.head?, t.kind ≠ .star
  last : ∀ t ∈ ts.getLast?, t.kind ≠ .star

namespace Sealed

theorem nil : Sealed [] := ⟨.nil, by simp, by simp⟩

theorem singleton {t : Token} (h : t.kind ≠ .star) : Sealed [t] :=
  ⟨.singleton t, by simpa using h, by simpa using h⟩

/-- What stands side by side at the seam must be apart. -/
theorem append {ts us : List Token} (hts : Sealed ts) (hus : Sealed us)
    (h : ∀ t ∈ ts.getLast?, ∀ u ∈ us.head?, Apart t.kind u.kind) : Sealed (ts ++ us) where
  chain := hts.chain.append hus.chain h
  head t ht := by
    rw [List.head?_append, Option.mem_def, Option.or_eq_some_iff] at ht
    exact ht.elim (hts.head t) fun h => hus.head t h.2
  last t ht := by
    rw [List.getLast?_append, Option.mem_def, Option.or_eq_some_iff] at ht
    exact ht.elim (hus.last t) fun h => hts.last t h.2

/-- A mark at the seam. -/
theorem append_cons {ts us : List Token} {m : Token} (hts : Sealed ts) (hus : Sealed us)
    (hm : m.kind.isWord = false) (hends : m.kind ≠ .star ∨ ts ≠ [] ∧ us ≠ []) :
    Sealed (ts ++ m :: us) where
  chain := by
    refine hts.chain.append (List.isChain_cons.2 ⟨fun u hu => ?_, hus.chain⟩) fun t ht u hu => ?_
    · exact apart_of_mark_left hm (hus.head u hu)
    · obtain rfl : m = u := by simpa using hu
      exact apart_of_mark hm (hts.last t ht)
  head t ht := by
    cases ts with
    | nil =>
      obtain rfl : m = t := by simpa using ht
      exact hends.elim id fun h => absurd rfl h.1
    | cons t' ts => exact hts.head t ht
  last t ht := by
    rw [List.getLast?_append, List.getLast?_cons, Option.mem_def] at ht
    cases hlast : us.getLast? with
    | none =>
      obtain rfl : m = t := by simpa [hlast] using ht
      exact hends.elim id fun h => absurd (List.getLast?_eq_none_iff.1 hlast) h.2
    | some u =>
      obtain rfl : u = t := by simpa [hlast] using ht
      exact hus.last u hlast

theorem cons {ts : List Token} {m : Token} (hts : Sealed ts) (hm : m.kind.isWord = false)
    (hstar : m.kind ≠ .star) : Sealed (m :: ts) :=
  nil.append_cons hts hm (.inl hstar)

theorem concat {ts : List Token} {m : Token} (hts : Sealed ts) (hm : m.kind.isWord = false)
    (hstar : m.kind ≠ .star) : Sealed (ts ++ [m]) :=
  hts.append_cons nil hm (.inl hstar)

end Sealed

theorem Mention.sealed {ts : List Token} {n : Token} {negated : Bool} (h : Mention ts n negated) :
    Sealed ts := by
  cases h <;> constructor <;> simp [Apart, TokenKind.isWord, *]

theorem State.sealed {ts : List Token} {state : Option String} (h : State ts state) :
    Sealed ts := by
  cases h with
  | absent => exact .nil
  | stated he hs => rcases hs with hs | hs <;> constructor <;> simp [Apart, TokenKind.isWord, *]

theorem State.head {ts : List Token} {state : Option String} (h : State ts state) :
    ∀ t ∈ ts.head?, t.kind.isWord = false := by
  cases h with
  | absent => simp
  | stated he _ => simp [he, TokenKind.isWord]

theorem Spec.sealed {ts : List Token} {s : VarSpec} (h : Spec ts s) : Sealed ts := by
  obtain ⟨hn, hs⟩ := h
  refine hn.sealed.append hs.sealed fun t ht u hu => ?_
  exact apart_of_mark (hs.head u hu) (hn.sealed.last t ht)

theorem Specs.sealed {ts : List Token} {ss : List VarSpec} (h : Specs ts ss) : Sealed ts := by
  induction h with
  | one h => exact h.sealed
  | more h hc _ ih => exact h.sealed.append_cons ih (by simp [hc, TokenKind.isWord]) (by simp [hc])

theorem Conditions.sealed {ts : List Token} {ss : List VarSpec} (h : Conditions ts ss) :
    Sealed ts := by
  cases h with
  | absent => exact .nil
  | given hb hs =>
    exact hs.sealed.cons (by simp [hb, TokenKind.isWord]) (by simp [hb])

theorem Conditions.head {ts : List Token} {ss : List VarSpec} (h : Conditions ts ss) :
    ∀ t ∈ ts.head?, t.kind.isWord = false := by
  cases h with
  | absent => simp
  | given hb _ => simp [hb, TokenKind.isWord]

theorem isWord_of_additive? {k : TokenKind} {op : Operator} (h : Parser.additive? k = some op) :
    k.isWord = false ∧ k ≠ .star := by
  cases k <;> simp_all [Parser.additive?, TokenKind.isWord]

theorem isWord_of_multiplicative? {k : TokenKind} {op : Operator}
    (h : Parser.multiplicative? k = some op) : k.isWord = false := by
  cases k <;> simp_all [Parser.multiplicative?, TokenKind.isWord]

theorem Derives.ne_nil {level : Level} {ts : List Token} {x : Expr String}
    (h : Derives level ts x) : ts ≠ [] := by
  obtain ⟨t, us, rfl, -⟩ := h.exists_cons
  exact List.cons_ne_nil t us

theorem Derives.sealed {level : Level} {ts : List Token} {x : Expr String}
    (h : Derives level ts x) : Sealed ts := by
  induction h with
  | term _ ih | unary _ ih | primary _ ih => exact ih
  | sum _ ho _ ihx ihy =>
    obtain ⟨hword, hstar⟩ := isWord_of_additive? ho
    exact ihx.append_cons ihy hword (.inl hstar)
  | product hx ho hy ihx ihy =>
    exact ihx.append_cons ihy (isWord_of_multiplicative? ho) (.inr ⟨hx.ne_nil, hy.ne_nil⟩)
  | minus ht _ ih | plus ht _ ih => exact ih.cons (by simp [ht, TokenKind.isWord]) (by simp [ht])
  | number ht => exact .singleton (by simp [ht])
  | parens ho _ hc ih =>
    exact (ih.concat (by simp [hc, TokenKind.isWord]) (by simp [hc])).cons
      (by simp [ho, TokenKind.isWord]) (by simp [ho])
  | @probability p o c ts us targets conditions hp _ ho ht hu hc =>
    have hbody := ht.sealed.append hu.sealed fun t htlast u huhead =>
      apart_of_mark (hu.head u huhead) (ht.sealed.last t htlast)
    have hclose : Sealed (ts ++ us ++ [c]) :=
      hbody.concat (by simp [hc, TokenKind.isWord]) (by simp [hc])
    have hname : Sealed [p] := .singleton (by simp [hp])
    rw [← List.append_assoc]
    exact hname.append_cons hclose (by simp [ho, TokenKind.isWord]) (.inl (by simp [ho]))

/-- **No blanks are needed in a query.** -/
theorem DerivesQuery.sealed {ts : List Token} {x : Expr String} (h : DerivesQuery ts x) :
    Sealed ts := by
  cases h with
  | independence | condIndependence => constructor <;> simp [Apart, TokenKind.isWord, *]
  | expr h => exact h.sealed

end Grammar

namespace Token

open Grammar (Apart)

/-! ## Pieces with blanks around them -/

/-- A token without its place, and whether it is the name of an entry of a
    probability. -/
structure Piece where
  kind : TokenKind
  text : String
  isEntry : Bool

/-- The token that a piece is at a place. -/
def Piece.at (p : Piece) (start : Nat) : Token :=
  ⟨p.kind, p.text, start, start + byteLength p.text.toList⟩

/-- Pieces one after the other, with blanks in front of each and behind all. -/
def layout (gap : Nat → List Char) : List Piece → List Char
  | [] => gap 0
  | p :: ps => gap 0 ++ (p.text.toList ++ layout (fun i => gap (i + 1)) ps)

/-- Where each piece starts, in bytes. -/
def places (gap : Nat → List Char) (position : Nat) : List Piece → List (Piece × Nat)
  | [] => []
  | p :: ps =>
    let start := position + byteLength (gap 0)
    (p, start) :: places (fun i => gap (i + 1)) (start + byteLength p.text.toList) ps

theorem map_fst_places (gap : Nat → List Char) (position : Nat) (ps : List Piece) :
    (places gap position ps).map Prod.fst = ps := by
  induction ps generalizing gap position with
  | nil => rfl
  | cons p ps ih => rw [places, List.map_cons, ih]

theorem byteLength_append (cs ds : List Char) :
    byteLength (cs ++ ds) = byteLength cs + byteLength ds := by
  induction cs with
  | nil => simp [byteLength]
  | cons c cs ih => rw [List.cons_append, byteLength, ih, byteLength, Nat.add_assoc]

/-- A piece stands where it starts. -/
theorem exists_of_mem_places {gap : Nat → List Char} {position n : Nat} {ps : List Piece}
    {p : Piece} (h : (p, n) ∈ places gap position ps) : ∃ front back,
      layout gap ps = front ++ (p.text.toList ++ back) ∧ n = position + byteLength front := by
  induction ps generalizing gap position with
  | nil => cases h
  | cons q ps ih =>
    rw [places, List.mem_cons] at h
    rcases h with h | h
    · cases h
      exact ⟨gap 0, _, rfl, rfl⟩
    · obtain ⟨front, back, hlayout, rfl⟩ := ih h
      refine ⟨gap 0 ++ (q.text.toList ++ front), back, by simp [layout, hlayout], ?_⟩
      simp only [byteLength_append]
      omega

theorem ends_of_separates {c : Char} (hc : separates c) (cs : List Char) (k : TokenKind) :
    Ends k (c :: cs) := by
  simp only [separates, Bool.or_eq_true, beq_iff_eq] at hc
  rcases hc with ((rfl | rfl) | rfl) | rfl <;> cases k <;> simp [Ends, continuesName]

theorem ends_nil (k : TokenKind) : Ends k [] := by cases k <;> simp [Ends]

/-- No token but a star or two starts with a star. -/
theorem head_ne_star {k : TokenKind} {c : Char} {cs : List Char} (h : IsLexeme k (c :: cs))
    (hk : k ≠ .star ∧ k ≠ .doubleStar) : c ≠ '*' := by
  rintro rfl
  cases h with
  | mark h =>
    cases h
    exact hk.1 rfl
  | doubleStar => exact hk.2 rfl
  | number h =>
    obtain ⟨_, _, he, hc⟩ := h.exists_cons
    cases he
    simp at hc
  | name h =>
    obtain ⟨hc, -⟩ := h
    simp [startsName] at hc

/-- A token ends where one starts that may stand at its side. -/
theorem ends_of_apart {j k : TokenKind} {cs ds : List Char} (hk : IsLexeme k cs) (h : Apart j k)
    (hpower : k ≠ .doubleStar) : Ends j (cs ++ ds) := by
  have hword : j.isWord → ∀ d ∈ (cs ++ ds).head?, continuesName d = false ∧ d ≠ '.' := by
    intro hj d hd
    cases hk with
    | mark hc =>
      obtain rfl : _ = d := by simpa using hd
      exact ⟨(of_markKind? hc).1, (of_markKind? hc).2.1⟩
    | doubleStar => exact absurd rfl hpower
    | number | name => exact absurd ⟨hj, rfl⟩ h.1
  cases j with
  | number | name => exact hword rfl
  | star =>
    obtain ⟨c, cs, rfl, -⟩ := hk.exists_cons
    have hc := head_ne_star hk ⟨fun he => h.2 ⟨rfl, he⟩, hpower⟩
    simpa [Ends] using hc
  | _ => trivial

/-- A piece ends where the blanks or the next piece start. -/
theorem ends_layout {gap : Nat → List Char} (hgap : ∀ i, ∀ c ∈ gap i, separates c)
    {ps : List Piece} (hps : ∀ p ∈ ps, IsLexeme p.kind p.text.toList ∧ p.kind ≠ .doubleStar)
    {k : TokenKind} (h : ∀ p ∈ ps.head?, Apart k p.kind) : Ends k (layout gap ps) := by
  cases hblanks : gap 0 with
  | cons c cs =>
    have hc : separates c := hgap 0 c (by simp [hblanks])
    cases ps <;> rw [layout, hblanks] <;> exact ends_of_separates hc _ k
  | nil =>
    cases ps with
    | nil =>
      rw [layout, hblanks]
      exact ends_nil k
    | cons p ps =>
      obtain ⟨hp, hpower⟩ := hps p (List.mem_cons_self ..)
      rw [layout, hblanks, List.nil_append]
      exact ends_of_apart hp (h p rfl) hpower

/-- **What is laid out is scanned**, if no piece can run into the next. -/
theorem scanFrom_layout {gap : Nat → List Char} (hgap : ∀ i, ∀ c ∈ gap i, separates c)
    {ps : List Piece} (hps : ∀ p ∈ ps, IsLexeme p.kind p.text.toList ∧ p.kind ≠ .doubleStar)
    (hchain : ps.IsChain fun p q => Apart p.kind q.kind) (position : Nat) :
    ∃ e, e.kind = .ending ∧ scanFrom position (layout gap ps) =
      .ok ((places gap position ps).map (fun (p, n) => p.at n) ++ [e]) := by
  induction ps generalizing gap position with
  | nil =>
    have hscan := scanFrom_blanks (hgap 0) position []
    rw [List.append_nil, scanFrom] at hscan
    exact ⟨_, rfl, hscan⟩
  | cons p ps ih =>
    rw [List.forall_mem_cons] at hps
    rw [List.isChain_cons] at hchain
    have hends : Ends p.kind (layout (fun i => gap (i + 1)) ps) :=
      ends_layout (fun i => hgap (i + 1)) hps.2 hchain.1
    obtain ⟨e, he, hscan⟩ := ih (fun i => hgap (i + 1)) hps.2 hchain.2
      (position + byteLength (gap 0) + byteLength p.text.toList)
    refine ⟨e, he, ?_⟩
    rw [layout, scanFrom_blanks (hgap 0), scanFrom_lexeme hps.1.1 hends, hscan]
    simp [places, Except.map, Piece.at]

end Token

end JointProb
