import Xrash.PostfixEvaluator

/-!
# Walking up the stack

`SimpleCFIWalker` finds the registers of a caller from those of its callee. What the rules of a
frame yield for the registers that are known, `FindCallerRegs`, is not in the repository and a
parameter: it has the memory and the frame's rules in it, and may fail.
-/

namespace Xrash.SimpleCFIWalker

open PostfixEvaluator (Dictionary)

/-- A register of the architecture. Members of the context are given by `ι`. -/
structure RegisterSet (ι : Type) where
  name : Str
  alternateName : Option Str
  calleeSaves : Bool
  validityFlag : BitVec 32
  contextMember : ι

/-- The registers in a context, and the flags of those that are valid. -/
structure Frame (ι : Type) (w : ℕ) where
  context : ι → BitVec w
  validity : BitVec 32

abbrev Rules (w : ℕ) := Dictionary w → Option (Dictionary w)

variable {ι : Type} [DecidableEq ι] {w : ℕ}

def Frame.Valid (f : Frame ι w) (r : RegisterSet ι) : Prop := f.validity &&& r.validityFlag ≠ 0

instance decidableValid (f : Frame ι w) (r : RegisterSet ι) : Decidable (f.Valid r) :=
  inferInstanceAs (Decidable (_ ≠ _))

/-- The values of the registers that are valid in the callee. -/
def calleeRegisters (map : List (RegisterSet ι)) (callee : Frame ι w) : Dictionary w :=
  map.foldl (fun registers r =>
    if callee.Valid r then Function.update registers r.name (some (callee.context r.contextMember))
    else registers) fun _ => none

def Frame.set (f : Frame ι w) (r : RegisterSet ι) (value : BitVec w) : Frame ι w :=
  ⟨Function.update f.context r.contextMember value, f.validity ||| r.validityFlag⟩

/-- What the loop does with a register of the caller. -/
def recover (callers : Dictionary w) (callee caller : Frame ι w) (r : RegisterSet ι) : Frame ι w :=
  match callers r.name with
  | some value => caller.set r value
  | none =>
    match r.alternateName.bind callers with
    | some value => caller.set r value
    | none =>
      if r.calleeSaves ∧ callee.Valid r then caller.set r (callee.context r.contextMember)
      else caller

/-- The context before anything is found: each of its bytes is `0xda`. -/
def unknown : Frame ι w :=
  ⟨fun _ => BitVec.ofNat w (Nat.ofDigits 256 (List.replicate (w / 8) 0xda)), 0⟩

def findCallerRegisters (map : List (RegisterSet ι)) (rules : Rules w) (callee : Frame ι w) :
    Option (Frame ι w) :=
  (rules (calleeRegisters map callee)).map fun callers =>
    map.foldl (recover callers callee) unknown

/-- From a frame up the stack, by the rules of one frame after the other. -/
def walk (map : List (RegisterSet ι)) (frames : List (Rules w)) (callee : Frame ι w) :
    Option (Frame ι w) :=
  frames.foldlM (fun callee rules => findCallerRegisters map rules callee) callee

/-! ## Unwinding -/

/-- The registers by their names, as far as they are known. -/
def known (map : List (RegisterSet ι)) (f : Frame ι w) : Dictionary w := fun name =>
  (map.find? (·.name = name)).bind fun r =>
    if f.Valid r then some (f.context r.contextMember) else none

/-- What is known of a caller: what its rules give under either name, and what the callee has
saved. -/
def unwind (map : List (RegisterSet ι)) (rules : Rules w) (callee : Dictionary w) :
    Option (Dictionary w) :=
  (rules callee).map fun callers name =>
    (map.find? (·.name = name)).bind fun r =>
      callers r.name <|> r.alternateName.bind callers
        <|> if r.calleeSaves then callee r.name else none

end Xrash.SimpleCFIWalker
