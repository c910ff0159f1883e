/-
  JointProb — what can go wrong, and how it is reported.

  Each layer has its own causes; `message` words a cause and `code` sorts it
  into a group of its layer.

  * `SpecError`: a specification text that gives no distribution (10 to 19);
  * `QueryError`: a query that cannot be read, bound or evaluated (20 to 29);
  * `StatsError`: a statistic that does not exist (30 to 39);
  * `SettingsError`: settings that cannot be used (40 to 49);
  * `Failure`: any of these, no distribution (50), or a file (60).
-/
import JointProb.Scalar.Basic

namespace JointProb

variable {α : Type} [DecimalText α]

/-! ## Specifications -/

/-- What is wrong with a line that has none of the forms of its format. -/
inductive LineFault where
  | repeatedHeader
  | noPattern (content : String)
  | noEntry (content : String)
  | outsideBlock (content : String)
  | unbalanced (key : String)
  | parentCount (child : String) (expected found : Nat)
  | unknownState (name state : String)
  | notTwoStates (child name : String) (cardinality : Nat)
  | notTrueFalse (child name : String) (labels : List String)
deriving DecidableEq, Repr

/-- The wording of a fault in a line. -/
def LineFault.message : LineFault → String
  | repeatedHeader => "duplicate 'variables:' header"
  | noPattern content => s!"expected '<pattern>: <probability>', got '{content}'"
  | noEntry content => s!"expected '<entry>: <probability>', got '{content}'"
  | outsideBlock content => s!"'{content}' is not a block header and no block is open"
  | unbalanced key => s!"unbalanced parentheses in '{key}'"
  | parentCount child expected found =>
    s!"expected {expected} parent state(s) for '{child}', got {found}"
  | unknownState name state => s!"unknown state '{state}' for variable '{name}'"
  | notTwoStates child name cardinality =>
    s!"shorthand CPT for '{child}' needs two-state variables, but '{name}' has " ++
      s!"{cardinality} states"
  | notTrueFalse child name labels =>
    s!"shorthand CPT for '{child}' needs true/false states, but '{name}' is labelled " ++
      "\x7b" ++ ", ".intercalate labels ++ "\x7d"

/-- What is wrong with a declaration of variables or of a table. -/
inductive DeclarationFault where
  | invalidName (name : String)
  | afterBlock
  | unclosedStates
  | emptyState
  | repeatedState (state : String)
  | tooFewStates
  | repeatedParent (child parent : String)
  | noSuchVariable (index count : Nat)
  | noSuchParent (child : String) (index count : Nat)
  | tableLength (child : String) (expected found : Nat)
deriving DecidableEq, Repr

/-- The wording of a fault in a declaration. -/
def DeclarationFault.message : DeclarationFault → String
  | invalidName name => s!"invalid variable name '{name}'"
  | afterBlock => "variables must be declared before the first CPT block"
  | unclosedStates => "missing closing '\x7d'"
  | emptyState => "empty state label"
  | repeatedState state => s!"state '{state}' listed twice"
  | tooFewStates => "a variable needs at least two states"
  | repeatedParent child parent => s!"parent '{parent}' listed twice for '{child}'"
  | noSuchVariable index count => s!"CPT for variable index {index} outside a catalog of {count}"
  | noSuchParent child index count =>
    s!"parent index {index} of '{child}' outside a catalog of {count}"
  | tableLength child expected found =>
    s!"CPT for '{child}' has {found} entries, expected {expected}"

/-- Why a specification gives no distribution.  Lines count from one; line
    zero stands for no line at all. -/
inductive SpecError (α : Type) where
  | malformed (line : Nat) (fault : LineFault)
  | noEntries
  | noVariables
  | invalidPattern (line : Nat) (pattern : String)
  | patternLength (line expected found : Nat)
  | invalidProbability (line : Nat) (value : String)
  | repeatedPattern (line : Nat) (pattern : String)
  | negativeResidual (sum residual : α)
  | sumAboveBand (sum : α)
  | sumBelowBand (sum : α)
  | unknownVariable (line : Nat) (name : String)
  | repeatedVariable (line : Nat) (name : String)
  | invalidDeclaration (line : Nat) (fault : DeclarationFault)
  | missingTable (name : String)
  | mixedNotation (line : Nat) (name : String)
  | repeatedEntry (line : Nat) (name pattern : String)
  | incompleteTable (name : String) (expected found : Nat)
  | rowSum (name context : String) (sum : α)
  | cyclic (names : List String)
  | networkSum (sum : α)
  | spaceTooLarge (size cap : Nat)
  | notBoolean (name : String)
deriving DecidableEq, Repr

/-- The wording of a cause. -/
def SpecError.message : SpecError α → String
  | malformed line fault => s!"line {line}: {fault.message}"
  | noEntries => "no probability entries found"
  | noVariables => "network must declare its variables before any CPT block"
  | invalidPattern line pattern => s!"line {line}: invalid binary pattern '{pattern}'"
  | patternLength line expected found =>
    s!"line {line}: pattern has length {found}, expected {expected}"
  | invalidProbability line value =>
    s!"line {line}: invalid probability value '{value}' (must be a number in [0, 1])"
  | repeatedPattern line pattern => s!"line {line}: duplicate entry for pattern '{pattern}'"
  | negativeResidual sum residual =>
    "probabilities sum to " ++ DecimalText.shortest sum ++
      " before inferring the missing entry (residual " ++ DecimalText.shortest residual ++ ")"
  | sumAboveBand sum =>
    "probabilities sum to " ++ DecimalText.shortest sum ++
      "; deviation too large for auto-normalization"
  | sumBelowBand sum =>
    "probabilities sum to " ++ DecimalText.shortest sum ++
      "; too far below 1 for auto-normalization"
  | unknownVariable line name => s!"line {line}: unknown variable '{name}'"
  | repeatedVariable line name => s!"line {line}: variable '{name}' is defined more than once"
  | invalidDeclaration line fault => s!"line {line}: invalid declaration: {fault.message}"
  | missingTable name => s!"variable '{name}' is declared but has no CPT"
  | mixedNotation line name =>
    s!"line {line}: CPT for '{name}' mixes full and shorthand notation"
  | repeatedEntry line name pattern =>
    s!"line {line}: duplicate CPT entry for '{name}' at {pattern}"
  | incompleteTable name expected found =>
    s!"incomplete CPT for '{name}': expected {expected} entries, got {found}"
  | rowSum name context sum =>
    s!"CPT for '{name}' given {context} sums to " ++ DecimalText.shortest sum ++ ", expected 1"
  | cyclic names => "network contains a cycle through: " ++ ", ".intercalate names
  | networkSum sum =>
    "expanded network sums to " ++ DecimalText.shortest sum ++ "; CPTs are not stochastic"
  | spaceTooLarge size cap => s!"assignment space of {size} exceeds the configured cap of {cap}"
  | notBoolean name =>
    s!"variable '{name}' is not boolean; the joint-table format only stores " ++
      "\x7b0,1\x7d variables"

/-- The group of a cause. -/
def SpecError.code : SpecError α → Nat
  | malformed .. | noEntries | noVariables | invalidPattern .. | invalidDeclaration .. => 10
  | patternLength .. | repeatedPattern .. => 11
  | invalidProbability .. => 12
  | negativeResidual .. | sumAboveBand .. | sumBelowBand .. => 13
  | unknownVariable .. | repeatedVariable .. | missingTable .. => 14
  | mixedNotation .. | repeatedEntry .. | incompleteTable .. | rowSum .. => 15
  | cyclic .. => 16
  | networkSum .. => 17
  | spaceTooLarge .. => 18
  | notBoolean .. => 19

/-! ## Queries -/

/-- What the grammar of queries asks for at some place. -/
inductive Expectation where
  | operatorOrEnd
  | openParen
  | closeParen
  | comma
  | bar
  | variableName
  | primary
  | state
deriving DecidableEq, Repr

/-- The wording of an expectation. -/
def Expectation.message : Expectation → String
  | operatorOrEnd => "an operator or end of input"
  | openParen => "'('"
  | closeParen => "')'"
  | comma => "','"
  | bar => "'|'"
  | variableName => "a variable name"
  | primary => "a number, '(' or P(...)"
  | state => "a state after '='"

/-- What is wrong with the text of a query at some place. -/
inductive QueryFault where
  | unexpectedCharacter (c : Char)
  | unexpectedToken (expected : Expectation) (found : String)
  | unexpectedEnd (expected : Expectation)
  | exponentiation
  | plainNameNeeded
  | invalidNumber (text : String)
  | bareName (name : String)
  | predicateInArithmetic
  | predicateNeeded
deriving DecidableEq, Repr

/-- The wording of a fault in a query. -/
def QueryFault.message : QueryFault → String
  | unexpectedCharacter c => s!"unexpected character '{c}'"
  | unexpectedToken expected found => s!"expected {expected.message}, found '{found}'"
  | unexpectedEnd expected => s!"expected {expected.message}, found end of input"
  | exponentiation => "exponentiation ('^' or '**') is not supported"
  | plainNameNeeded => "independence predicates take plain variable names"
  | invalidNumber text => s!"invalid number '{text}'"
  | bareName name => s!"unexpected name '{name}'; variables may only appear inside P(...)"
  | predicateInArithmetic => "independence predicates cannot be combined with arithmetic"
  | predicateNeeded => "expected an independence predicate"

/-- Why a query has no answer.  Positions count the bytes of the text. -/
inductive QueryError where
  | malformed (position : Nat) (fault : QueryFault)
  | unknownVariable (name : String)
  | unknownState (name state : String)
  | conflicting (name : String)
  | stateNeeded (name : String) (cardinality : Nat)
  | zeroCondition (condition : String)
  | divisionByZero
deriving DecidableEq, Repr

/-- The wording of a cause. -/
def QueryError.message : QueryError → String
  | malformed position fault => s!"syntax error at {position}: {fault.message}"
  | unknownVariable name => s!"unknown variable name: {name}"
  | unknownState name state => s!"variable '{name}' has no state '{state}'"
  | conflicting name => s!"conflicting assignments for variable '{name}'"
  | stateNeeded name cardinality =>
    s!"variable '{name}' has {cardinality} states; use {name}=<state>"
  | zeroCondition condition => s!"conditioning event has zero probability: {condition}"
  | divisionByZero => "division by zero in arithmetic expression"

/-- The group of a cause. -/
def QueryError.code : QueryError → Nat
  | malformed .. => 20
  | unknownVariable .. => 21
  | unknownState .. => 22
  | conflicting .. => 23
  | stateNeeded .. => 24
  | zeroCondition .. => 25
  | divisionByZero => 26

/-! ## Statistics -/

/-- Why a statistic does not exist. -/
inductive StatsError (α : Type) where
  | variableOutOfRange (index count : Nat)
  | notBinary (name : String) (cardinality : Nat)
  | negativeInformation (value tolerance : α)
  | invalidBase (base : α)
deriving DecidableEq, Repr

/-- The wording of a cause. -/
def StatsError.message : StatsError α → String
  | variableOutOfRange index count =>
    s!"variable index {index} out of range (distribution has {count} variables)"
  | notBinary name cardinality =>
    s!"variable '{name}' has {cardinality} states; a binary variable is required"
  | negativeInformation value tolerance =>
    "mutual information is " ++ DecimalText.shortest value ++
      ", below the tolerance of -" ++ DecimalText.shortest tolerance
  | invalidBase base => "invalid logarithm base " ++ DecimalText.shortest base

/-- The group of a cause. -/
def StatsError.code : StatsError α → Nat
  | variableOutOfRange .. => 30
  | notBinary .. => 31
  | negativeInformation .. => 32
  | invalidBase .. => 33

/-! ## Settings -/

/-- A value that makes no sense, with the name of its field. -/
inductive Problem (α : Type) where
  | notPositive (field : String) (value : α)
  | bandOutOfRange (band : α)
  | sumOutsideBand (band sum : α)
  | invalidBase (base : α)
  | tooFewAssignments (count : Nat)
deriving DecidableEq, Repr

namespace Problem

/-- The field of a problem. -/
def field : Problem α → String
  | notPositive field _ => field
  | bandOutOfRange _ => "tolerances.normalization_band"
  | sumOutsideBand _ _ => "tolerances.sum"
  | invalidBase _ => "default_entropy_base"
  | tooFewAssignments _ => "max_assignment_space"

/-- The wording of a problem. -/
def message : Problem α → String
  | notPositive _ value => "must be positive and finite, got " ++ DecimalText.shortest value
  | bandOutOfRange band => "must lie in (0, 1), got " ++ DecimalText.shortest band
  | sumOutsideBand band sum =>
    "must be smaller than normalization_band (" ++ DecimalText.shortest band ++ "), got " ++
      DecimalText.shortest sum
  | invalidBase base => "must be positive, finite and not 1, got " ++ DecimalText.shortest base
  | tooFewAssignments count => s!"must be at least 2, got {count}"

/-- The field of a problem and its wording. -/
def text (p : Problem α) : String := p.field ++ ": " ++ p.message

end Problem

/-- Why there are no settings. -/
inductive SettingsError (α : Type) where
  | unreadable
  | malformed
  | invalid (problems : List (Problem α))
deriving DecidableEq, Repr

/-- The wording of a cause. -/
def SettingsError.message : SettingsError α → String
  | unreadable => "I/O error: the settings file cannot be read"
  | malformed => "parse error: the settings are not in JSON"
  | invalid problems => "invalid configuration: " ++ "; ".intercalate (problems.map Problem.text)

/-- The group of a cause. -/
def SettingsError.code : SettingsError α → Nat := fun _ => 40

/-! ## All layers -/

/-- Why an operation of the engine fails. -/
inductive Failure (α : Type) where
  | spec (e : SpecError α)
  | query (e : QueryError)
  | stats (e : StatsError α)
  | settings (e : SettingsError α)
  | noDistribution
  | file
deriving DecidableEq, Repr

/-- The wording of a cause, with its layer in front. -/
def Failure.message : Failure α → String
  | spec e => "file format error: " ++ e.message
  | query e => "query error: " ++ e.message
  | stats e => "statistics error: " ++ e.message
  | settings e => "configuration error: " ++ e.message
  | noDistribution => "no distribution loaded"
  | file => "I/O error: the file cannot be read or written"

/-- The group of a cause. -/
def Failure.code : Failure α → Nat
  | spec e => e.code
  | query e => e.code
  | stats e => e.code
  | settings e => e.code
  | noDistribution => 50
  | file => 60

end JointProb
