import Xrash.Text

/-!
# The postfix evaluator

`PostfixEvaluator` of the processor runs programs in postfix notation over unsigned integers of `w`
bits. Its stack is of strings: a token that is no operator is pushed as it is, a result is pushed in
decimal, and what a string stands for is found out when it is popped. There is no result where the
code divides by zero or writes through a null pointer.
-/

namespace Xrash.PostfixEvaluator

/-- `isspace` in the C locale. -/
def isCSpace (c : Char) : Bool := c = ' ' || (9 ≤ c.toNat && c.toNat ≤ 13)

/-- What `stream >> token` reads, one token after the other. -/
def tokens (expression : Str) : List Str := (expression.splitOnP isCSpace).filter (· ≠ [])

variable {w : ℕ}

abbrev Dictionary (w : ℕ) := Str → Option (BitVec w)

abbrev Validity := Str → Option Bool

abbrev Memory (w : ℕ) := BitVec w → Option (BitVec w)

/-- The stack, its top first, the dictionary, and the variables that were assigned if the caller
wants to know. -/
structure State (w : ℕ) where
  stack : List Str
  dictionary : Dictionary w
  assigned : Option Validity

/-- `token_stream >> literal`, with nothing left after it. As in the GNU library, the number may
have a sign, and one that is too large is none. -/
def extract (s : Str) : Option (BitVec w) :=
  let s := s.dropWhile isCSpace
  let digits := if s.head? = some '-' ∨ s.head? = some '+' then s.tail else s
  let n := Nat.ofDigitChars 10 digits 0
  if digits ≠ [] ∧ digits.all Char.isDigit ∧ n < 2 ^ w then
    some (if s.head? = some '-' then -BitVec.ofNat w n else BitVec.ofNat w n)
  else none

inductive PopResult (w : ℕ)
  | fail
  | value (value : BitVec w)
  | identifier (identifier : Str)

/-- `PopValueOrIdentifier`, where the pointer for the value may be null. -/
def popValueOrIdentifier (null : Bool) : List Str → Option (PopResult w × List Str)
  | [] => some (.fail, [])
  | token :: stack =>
    let negative := decide (token.head? = some '-')
    match extract (if negative then token.tail else token) with
    | some literal =>
      -- the value is negated without a look at the pointer
      if negative then if null then none else some (.value (-literal), stack)
      else some (.value literal, stack)
    | none => some (.identifier token, stack)

def popValue (s : State w) : Option (Option (BitVec w) × State w) :=
  match popValueOrIdentifier false s.stack with
  | none => none
  | some (.fail, stack) => some (none, { s with stack := stack })
  | some (.value v, stack) => some (some v, { s with stack := stack })
  | some (.identifier token, stack) => some (s.dictionary token, { s with stack := stack })

/-- `PopValues`: the second value is popped before the first. -/
def popValues (s : State w) : Option (Option (BitVec w × BitVec w) × State w) :=
  match popValue s with
  | none => none
  | some (none, s) => some (none, s)
  | some (some value2, s) => (popValue s).map fun r => (r.1.map fun value1 => (value1, value2), r.2)

def pushValue (s : State w) (value : BitVec w) : State w :=
  { s with stack := Nat.toDigits 10 value.toNat :: s.stack }

inductive BinaryOperation
  | add
  | subtract
  | multiply
  | divideQuotient
  | divideModulus
  | align
  deriving DecidableEq

def binaryOperation (token : Str) : Option BinaryOperation :=
  if token = ['+'] then some .add
  else if token = ['-'] then some .subtract
  else if token = ['*'] then some .multiply
  else if token = ['/'] then some .divideQuotient
  else if token = ['%'] then some .divideModulus
  else if token = ['@'] then some .align
  else none

def BinaryOperation.perform (operand1 operand2 : BitVec w) : BinaryOperation → Option (BitVec w)
  | add => some (operand1 + operand2)
  | subtract => some (operand1 - operand2)
  | multiply => some (operand1 * operand2)
  | divideQuotient => if operand2 = 0 then none else some (operand1 / operand2)
  | divideModulus => if operand2 = 0 then none else some (operand1 % operand2)
  | align => some (operand1 &&& (-1 ^^^ (operand2 - 1)))

def assign (s : State w) (identifier : Str) (value : BitVec w) : State w :=
  { s with
    dictionary := Function.update s.dictionary identifier (some value)
    assigned := s.assigned.map fun a => Function.update a identifier (some true) }

variable (memory : Option (Memory w))

def evaluateToken (token : Str) (s : State w) : Option (Bool × State w) :=
  match binaryOperation token with
  | some operation =>
    match popValues s with
    | none => none
    | some (none, s) => some (false, s)
    | some (some (operand1, operand2), s) =>
      (operation.perform operand1 operand2).map fun result => (true, pushValue s result)
  | none =>
    if token = ['^'] then
      match memory with
      | none => some (false, s)
      | some getMemoryAtAddress =>
        match popValue s with
        | none => none
        | some (none, s) => some (false, s)
        | some (some address, s) =>
          match getMemoryAtAddress address with
          | none => some (false, s)
          | some value => some (true, pushValue s value)
    else if token = ['='] then
      match popValue s with
      | none => none
      | some (none, s) => some (false, s)
      | some (some value, s) =>
        match (popValueOrIdentifier true s.stack : Option (PopResult w × List Str)) with
        | none => none
        | some (.identifier identifier, stack) =>
          if identifier.head? ≠ some '$' then some (false, { s with stack := stack })
          else some (true, assign { s with stack := stack } identifier value)
        | some (_, stack) => some (false, { s with stack := stack })
    else some (true, { s with stack := token :: s.stack })

/-- Going on after a step that returned true. -/
def andThen (r : Option (Bool × State w)) (f : State w → Option (Bool × State w)) :
    Option (Bool × State w) :=
  match r with
  | some (true, s) => f s
  | r => r

/-- `EvaluateInternal`. An assignment may be smashed up against the next token. -/
def evaluateInternal : List Str → State w → Option (Bool × State w)
  | [], s => some (true, s)
  | token :: rest, s =>
    if 1 < token.length ∧ token.head? = some '=' then
      andThen (evaluateToken memory ['='] s) fun s =>
        andThen (evaluateToken memory token.tail s) fun s => evaluateInternal rest s
    else andThen (evaluateToken memory token s) fun s => evaluateInternal rest s

/-- `Evaluate`: what it returns, and what it leaves in the dictionary and in `assigned`. -/
def evaluate (expression : Str) (dictionary : Dictionary w) (assigned : Option Validity) :
    Option (Bool × Dictionary w × Option Validity) :=
  (evaluateInternal memory (tokens expression) ⟨[], dictionary, assigned⟩).map fun r =>
    (r.1 && r.2.stack.isEmpty, r.2.dictionary, r.2.assigned)

/-- `EvaluateForValue`: the result when it returns true, and what it leaves in the dictionary. -/
def evaluateForValue (expression : Str) (dictionary : Dictionary w) :
    Option (Option (BitVec w) × Dictionary w) :=
  match evaluateInternal memory (tokens expression) ⟨[], dictionary, none⟩ with
  | none => none
  | some (false, s) => some (none, s.dictionary)
  | some (true, s) =>
    if s.stack.length ≠ 1 then some (none, s.dictionary)
    else (popValue s).map fun r => (r.1, r.2.dictionary)

end Xrash.PostfixEvaluator
