import Mathlib.Logic.Function.Basic
import Mathlib.Data.Nat.Notation

/-!
# Linked pointers

`linked_ptr`: the pointers that share an object are linked in a circle, and the one that is alone on
its circle deletes the object when it leaves. The loops along a circle have a bound.
-/

namespace Xrash

/-- The fields of the pointers, by their addresses; what was deleted and what `release` returned,
the latest first. -/
structure Pointers (α V : Type) where
  next : α → α
  value : α → Option V
  deleted : List V
  released : List V

namespace Pointers

variable {α V : Type} [DecidableEq α]

/-- The loops of `join` and `depart`: from `p` along the circle until the next one is `target`. -/
def walk (next : α → α) (target : α) : ℕ → α → Option α
  | 0, _ => none
  | bound + 1, p => if next p = target then some p else walk next target bound (next p)

/-! ## linked_ptr_internal -/

def joinNew (m : Pointers α V) (p : α) : Pointers α V :=
  { m with next := Function.update m.next p p }

def join (bound : ℕ) (m : Pointers α V) (p ptr : α) : Option (Pointers α V) :=
  (walk m.next ptr bound ptr).map fun z =>
    { m with next := Function.update (Function.update m.next z p) p ptr }

def linkDepart (bound : ℕ) (m : Pointers α V) (p : α) : Option (Bool × Pointers α V) :=
  if m.next p = p then some (true, m)
  else (walk m.next p bound (m.next p)).map fun z =>
    (false, { m with next := Function.update m.next z (m.next p) })

/-! ## linked_ptr -/

def depart (bound : ℕ) (m : Pointers α V) (p : α) : Option (Pointers α V) :=
  (m.linkDepart bound p).map fun (last, m) =>
    if last then { m with deleted := (m.value p).toList ++ m.deleted } else m

def capture (m : Pointers α V) (p : α) (ptr : Option V) : Pointers α V :=
  { m with value := Function.update m.value p ptr }.joinNew p

def copy (bound : ℕ) (m : Pointers α V) (p ptr : α) : Option (Pointers α V) :=
  let m := { m with value := Function.update m.value p (m.value ptr) }
  if (m.value p).isSome then m.join bound p ptr else some (m.joinNew p)

/-- An operation on the pointer `p`. -/
inductive Op (α V : Type)
  | construct (p : α) (ptr : Option V)
  | copy (p ptr : α)
  | destroy (p : α)
  | assign (p ptr : α)
  | reset (p : α) (ptr : Option V)
  | release (p : α)

def step (bound : ℕ) (m : Pointers α V) : Op α V → Option (Pointers α V)
  | .construct p ptr => some (m.capture p ptr)
  | .copy p ptr => m.copy bound p ptr
  | .destroy p => m.depart bound p
  | .assign p ptr => if ptr = p then some m else (m.depart bound p).bind fun m => m.copy bound p ptr
  | .reset p ptr => (m.depart bound p).map fun m => m.capture p ptr
  | .release p => (m.linkDepart bound p).map fun (_, m) =>
      { m with
        value := Function.update m.value p none
        released := (m.value p).toList ++ m.released }

def run (bound : ℕ) (ops : List (Op α V)) (m : Pointers α V) : Option (Pointers α V) :=
  ops.foldlM (step bound) m

/-- Before there are any. -/
def empty : Pointers α V := ⟨id, fun _ => none, [], []⟩

end Pointers

end Xrash
