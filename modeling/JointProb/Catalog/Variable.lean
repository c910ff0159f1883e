/-
  JointProb — discrete variables.

  A variable has a name that queries can spell and a list of state labels.
  Some pairs of labels are known to mean false and true.

  * `Variable.defaults?` are the false and the true state, if the labels tell;
  * `Variable.resolve?` finds a state by its label or its position;
  * `defaultNames n` are names for `n` variables that have none.
-/
import JointProb.Text.Cut
import JointProb.Text.Numeral

namespace JointProb

/-- A discrete random variable. -/
structure Variable where
  name : String
  states : List String
deriving DecidableEq, Repr

/-- The positions of the states that mean false and true. -/
structure DefaultStates where
  falseState : Nat
  trueState : Nat
deriving DecidableEq, Repr

/-- The labels that mean false and true, in any case of their letters. -/
def booleanLabels : List (String × String) :=
  [("0", "1"), ("false", "true"), ("no", "yes"), ("off", "on"), ("f", "t"), ("n", "y"),
    ("absent", "present"), ("negative", "positive")]

/-- Whether two labels mean false and true, in this order. -/
def meansFalseTrue (first second : String) : Bool :=
  booleanLabels.any fun (no, yes) =>
    Text.equalUpToCase first.toList no.toList && Text.equalUpToCase second.toList yes.toList

namespace Variable

/-- A variable with the states `0` and `1`. -/
def boolean (name : String) : Variable := ⟨name, ["0", "1"]⟩

variable (v : Variable)

/-- The number of states. -/
def cardinality : Nat := v.states.length

/-- Whether there are two states. -/
def isBinary : Bool := v.cardinality == 2

/-- Whether the states are `0` and `1`, in this order. -/
def isBoolean : Bool := v.states == ["0", "1"]

/-- The false and the true state, if there are two states with labels that
    mean this. -/
def defaults? : Option DefaultStates :=
  match v.states with
  | [first, second] =>
    if meansFalseTrue first second then some ⟨0, 1⟩
    else if meansFalseTrue second first then some ⟨1, 0⟩
    else none
  | _ => none

/-- The state with a label, or else at the position that the text denotes. -/
def resolve? (state : String) : Option Nat :=
  match v.states.findIdx? (· == state) with
  | some i => some i
  | none => (Text.readNumeral? 10 state.toList).filter (· < v.cardinality)

end Variable

/-! ## Names -/

/-- Whether a text is a name: a letter or an underscore, then letters, digits
    and underscores, all of them ASCII. -/
def isIdentifier (name : String) : Bool :=
  match name.toList with
  | [] => false
  | c :: cs => (c.isAlpha || c == '_') && cs.all fun c => c.isAlphanum || c == '_'

/-- The name of the variable at a position: `A` to `Z`, then `V26`, `V27` and
    so on. -/
def defaultName (i : Nat) : String :=
  if i < 26 then String.singleton (Char.ofNat ('A'.toNat + i))
  else String.ofList ('V' :: Nat.toDigits 10 i)

/-- Names for a number of variables. -/
def defaultNames (count : Nat) : List String := (List.range count).map defaultName

end JointProb
