import Xrash.PostfixEvaluator

/-!
# Postfix programs

What a program for the evaluator says: assignments of expressions to variables, one after the other.
A literal or an identifier is looked up when its operator is applied, so after the operators within
the other operand.
-/

namespace Xrash.PostfixEvaluator

variable {w : ℕ}

/-- What a string on the stack stands for: a literal, which may have been written with a sign, or an
identifier. -/
inductive Operand (w : ℕ)
  | literal (value : BitVec w) (negative : Bool)
  | identifier (name : Str)

def operand (token : Str) : Operand w :=
  let negative := decide (token.head? = some '-')
  match extract (if negative then token.tail else token) with
  | some v => .literal (if negative then -v else v) negative
  | none => .identifier token

inductive Expr
  | atom (token : Str)
  | binary (operation : BinaryOperation) (e1 e2 : Expr)
  | dereference (e : Expr)

/-- Why an evaluation ends early. -/
inductive Stop
  | fails
  | crashes

def orStop {α : Type} (stop : Stop) : Option α → Except Stop α
  | some x => .ok x
  | none => .error stop

def Operand.resolve (dictionary : Dictionary w) : Operand w → Option (BitVec w)
  | literal v _ => some v
  | identifier name => dictionary name

def Operand.value (dictionary : Dictionary w) (o : Operand w) : Except Stop (BitVec w) :=
  orStop .fails (o.resolve dictionary)

/-- The value of an operator, where a division by zero has none. -/
def BinaryOperation.apply (operation : BinaryOperation) (dictionary : Dictionary w)
    (o1 o2 : Operand w) : Except Stop (Operand w) := do
  let v2 ← o2.value dictionary
  let v1 ← o1.value dictionary
  let v ← orStop .crashes (operation.perform v1 v2)
  return .literal v false

def dereference (memory : Option (Memory w)) (dictionary : Dictionary w) (o : Operand w) :
    Except Stop (Operand w) := do
  let getMemoryAtAddress ← orStop .fails memory
  let address ← o.value dictionary
  let v ← orStop .fails (getMemoryAtAddress address)
  return .literal v false

/-- What is left on the stack for an expression. -/
def Expr.run (memory : Option (Memory w)) (dictionary : Dictionary w) :
    Expr → Except Stop (Operand w)
  | atom token => .ok (operand token)
  | binary operation e1 e2 => do
    let o1 ← e1.run memory dictionary
    let o2 ← e2.run memory dictionary
    operation.apply dictionary o1 o2
  | dereference e => do
    let o ← e.run memory dictionary
    PostfixEvaluator.dereference memory dictionary o

structure Assignment where
  target : Str
  value : Expr

/-- The variable an assignment is for: one that begins with a dollar. A literal is no variable, and
one with a sign is written to. -/
def variableOf (w : ℕ) (token : Str) : Except Stop Str :=
  match (operand token : Operand w) with
  | .literal _ true => .error .crashes
  | .literal _ false => .error .fails
  | .identifier name => if name.head? ≠ some '$' then .error .fails else .ok name

/-- The value for the variable is worked out before the variable is looked at. -/
def assignTo (dictionary : Dictionary w) (target : Str) (o : Operand w) :
    Except Stop (Str × BitVec w) := do
  let v ← o.value dictionary
  let name ← variableOf w target
  return (name, v)

def Assignment.exec (memory : Option (Memory w)) (dictionary : Dictionary w) (p : Assignment) :
    Except Stop (Str × BitVec w) := do
  let o ← p.value.run memory dictionary
  assignTo dictionary p.target o

/-- What a program leaves: whether it has run to its end, the dictionary, and the variables that
were assigned. -/
def exec (memory : Option (Memory w)) : List Assignment → Dictionary w → Option Validity →
    Option (Bool × Dictionary w × Option Validity)
  | [], d, a => some (true, d, a)
  | p :: ps, d, a =>
    match p.exec memory d with
    | .ok (name, v) => exec memory ps (Function.update d name (some v))
      (a.map fun a => Function.update a name (some true))
    | .error .fails => some (false, d, a)
    | .error .crashes => none

/-- The value of an expression after a program, and the dictionary the program leaves. -/
def valueAfter (memory : Option (Memory w)) (ps : List Assignment) (e : Expr) (d : Dictionary w) :
    Option (Option (BitVec w) × Dictionary w) :=
  match exec memory ps d none with
  | none => none
  | some (false, d, _) => some (none, d)
  | some (true, d, _) =>
    match e.run memory d with
    | .ok o => some (o.resolve d, d)
    | .error .fails => some (none, d)
    | .error .crashes => none

/-! ## Programs as text -/

def BinaryOperation.symbol : BinaryOperation → Str
  | add => ['+']
  | subtract => ['-']
  | multiply => ['*']
  | divideQuotient => ['/']
  | divideModulus => ['%']
  | align => ['@']

/-- A token that is pushed. -/
def Atom (token : Str) : Prop := binaryOperation token = none ∧ token ≠ ['^'] ∧ token ≠ ['=']

instance (token : Str) : Decidable (Atom token) := inferInstanceAs (Decidable (_ ∧ _))

def Expr.tokens : Expr → List Str
  | atom token => [token]
  | binary operation e1 e2 => e1.tokens ++ e2.tokens ++ [operation.symbol]
  | dereference e => e.tokens ++ [['^']]

def Expr.Atoms : Expr → Prop
  | atom token => Atom token
  | binary _ e1 e2 => e1.Atoms ∧ e2.Atoms
  | dereference e => e.Atoms

instance Expr.decidableAtoms : (e : Expr) → Decidable e.Atoms
  | atom token => inferInstanceAs (Decidable (Atom token))
  | binary _ e1 e2 => @instDecidableAnd _ _ e1.decidableAtoms e2.decidableAtoms
  | dereference e => e.decidableAtoms

def Assignment.tokens (p : Assignment) : List Str := p.target :: (p.value.tokens ++ [['=']])

def Assignment.Atoms (p : Assignment) : Prop := Atom p.target ∧ p.value.Atoms

instance (p : Assignment) : Decidable p.Atoms := inferInstanceAs (Decidable (_ ∧ _))

/-- The tokens of a text in which assignments may be smashed up against the next token. -/
def unsmash (ts : List Str) : List Str :=
  ts.flatMap fun t => if 1 < t.length ∧ t.head? = some '=' then [['='], t.tail] else [t]

end Xrash.PostfixEvaluator
