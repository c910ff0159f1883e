/-
  JointProb — the characters of decimal numbers.

  * `Literal.inNumber` are digits, the point, signs and the letter of an
    exponent;
  * `Literal.forall_inNumber`: the text of a finite number has no others, and
    at least one.
-/
import JointProb.Proofs.Decimal.Grammar

namespace JointProb.Decimal.Literal

/-- A digit, the point, a sign or the letter of an exponent. -/
def inNumber (c : Char) : Bool := c.isDigit || ['.', '+', '-', 'e', 'E'].contains c

theorem inNumber_of_isDigit {c : Char} (h : c.isDigit) : inNumber c := by simp [inNumber, h]

theorem Sign.forall_inNumber {sign : List Char} {negative : Bool} (h : Sign sign negative) :
    ∀ c ∈ sign, inNumber c := by
  cases h with
  | absent => simp
  | plus => exact List.forall_mem_singleton.2 rfl
  | minus => exact List.forall_mem_singleton.2 rfl

theorem Fraction.forall_inNumber {fraction fs : List Char} (h : Fraction fraction fs) :
    ∀ c ∈ fraction, inNumber c := by
  cases h with
  | absent => simp
  | point hds => exact List.forall_mem_cons.2 ⟨rfl, fun c hc => inNumber_of_isDigit (hds c hc)⟩

theorem Exponent.forall_inNumber {x : List Char} {e : Int} (h : Exponent x e) :
    ∀ c ∈ x, inNumber c := by
  cases h with
  | absent => simp
  | stated hc hsign _ hds =>
    refine List.forall_mem_cons.2 ⟨?_, List.forall_mem_append.2 ⟨hsign.forall_inNumber, ?_⟩⟩
    · rcases hc with rfl | rfl <;> rfl
    · exact fun c hc => inNumber_of_isDigit (hds c hc)

theorem Unsigned.forall_inNumber {cs : List Char} {n : Nat} {e : Int} (h : Unsigned cs n e) :
    ∀ c ∈ cs, inNumber c := by
  obtain ⟨hds, hfraction, -, hx⟩ := h
  refine List.forall_mem_append.2 ⟨fun c hc => inNumber_of_isDigit (hds c hc), ?_⟩
  exact List.forall_mem_append.2 ⟨hfraction.forall_inNumber, hx.forall_inNumber⟩

/-- **The text of a finite number has no other characters.** -/
theorem forall_inNumber {cs : List Char} {negative : Bool} {digits : Nat} {exponent : Int}
    (h : read? cs = some (.finite negative digits exponent)) : ∀ c ∈ cs, inNumber c := by
  cases denotes_of_read? h with
  | finite hsign hunsigned =>
    exact List.forall_mem_append.2 ⟨hsign.forall_inNumber, hunsigned.forall_inNumber⟩

theorem ne_nil_of_read? {cs : List Char} {l : Literal} (h : read? cs = some l) : cs ≠ [] := by
  rintro rfl
  cases h

/-- Numbers have no blanks. -/
theorem isBlank_of_inNumber {c : Char} (h : inNumber c) : Text.isBlank c = false := by
  rw [inNumber, Bool.or_eq_true, List.contains_iff_mem] at h
  rcases h with h | h
  · obtain ⟨hlow, hhigh⟩ := Text.isDigit_iff.1 h
    exact Text.isBlank_eq_false (by omega) (by omega)
  · simp only [List.mem_cons, List.not_mem_nil, or_false] at h
    rcases h with rfl | rfl | rfl | rfl | rfl <;> rfl

end JointProb.Decimal.Literal
