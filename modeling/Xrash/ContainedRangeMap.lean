import Xrash.RangeMap
import Xrash.Lib.Laminar

/-!
# Contained range maps

`ContainedRangeMap` of the processor: a tree of ranges, each within its parent, the children of a
node in an ordered map under their high addresses. The map of a node without children, which is a
null pointer until something is stored below it, is the empty one here.
-/

namespace Xrash

open KeyList

/-- A node with its base, its entry and its children. The base and the entry of the root have no
meaning. -/
inductive ContainedRangeMap (w : ℕ) (ε : Type*)
  | mk (base : BitVec w) (entry : ε) (map : List (BitVec w × ContainedRangeMap w ε))

namespace ContainedRangeMap

variable {w : ℕ} {ε : Type*}

def base : ContainedRangeMap w ε → BitVec w
  | mk base _ _ => base

def entry : ContainedRangeMap w ε → ε
  | mk _ entry _ => entry

def map : ContainedRangeMap w ε → List (BitVec w × ContainedRangeMap w ε)
  | mk _ _ map => map

theorem sizeOf_child {l : List (BitVec w × ContainedRangeMap w ε)} {b : BitVec w} {x : ε} {i : ℕ}
    {key : BitVec w} {child : ContainedRangeMap w ε} (h : l[i]? = some (key, child)) :
    sizeOf child < sizeOf (mk b x l) := by
  have hmem := List.sizeOf_lt_of_mem (List.mem_of_getElem? h)
  simp only [Prod.mk.sizeOf_spec, mk.sizeOf_spec] at hmem ⊢
  omega

/-- The number of levels, with that of the root. -/
def depth : ContainedRangeMap w ε → ℕ
  | mk _ _ map => (map.attach.map fun e => depth e.1.2).foldr max 0 + 1
  termination_by m => m
  decreasing_by
    obtain ⟨i, hi⟩ := List.mem_iff_getElem?.1 e.2
    exact sizeOf_child hi

def new (default : ε) : ContainedRangeMap w ε := mk 0 default []

def clear : ContainedRangeMap w ε → ContainedRangeMap w ε
  | mk base entry _ => mk base entry []

/-- The second half of `StoreRange`: the range does not lie within one child, so it is refused when
it has a part of a child only, or takes the children it has for its own. -/
def storeOver (map : List (BitVec w × ContainedRangeMap w ε)) (base high : BitVec w) (entry : ε) :
    Option (List (BitVec w × ContainedRangeMap w ε)) :=
  let iteratorBase := lowerBound map base
  let iteratorHigh := lowerBound map high
  let containsHigh := map[iteratorHigh]?.any fun e => decide (e.2.base ≤ high)
  if map[iteratorBase]?.any (fun e => decide (e.2.base < base)) ∨
      containsHigh ∧ map[iteratorHigh]?.any (fun e => decide (high < e.1)) then none
  else
    let iteratorHigh := if containsHigh then iteratorHigh + 1 else iteratorHigh
    some (insert high (mk base entry (between map iteratorBase iteratorHigh))
      (eraseBetween map iteratorBase iteratorHigh))

def storeHere (b : BitVec w) (x : ε) (map : List (BitVec w × ContainedRangeMap w ε))
    (base high : BitVec w) (entry : ε) : Bool × ContainedRangeMap w ε :=
  match storeOver map base high entry with
  | some map' => (true, mk b x map')
  | none => (false, mk b x map)

def storeRange : ContainedRangeMap w ε → (base size : BitVec w) → ε → Bool × ContainedRangeMap w ε
  | mk b x map, base, size, entry =>
    let high := base + size - 1
    if size = 0 ∨ high < base then (false, mk b x map)
    else
      match _h : map[lowerBound map base]? with
      | some (key, child) =>
        if lowerBound map base = lowerBound map high ∧ child.base ≤ base then
          -- the new range is entirely within an existing child range
          if child.base = base ∧ key = high then (false, mk b x map)
          else
            let r := child.storeRange base size entry
            (r.1, mk b x (map.set (lowerBound map base) (key, r.2)))
        else storeHere b x map base high entry
      | none => storeHere b x map base high entry
  termination_by m => m
  decreasing_by exact sizeOf_child (by assumption)

def retrieveRange : ContainedRangeMap w ε → BitVec w → Option ε
  | mk _ _ map, address =>
    match _h : map[lowerBound map address]? with
    | none => none
    | some (_, child) =>
      if address < child.base then none
      else some ((child.retrieveRange address).getD child.entry)
  termination_by m => m
  decreasing_by exact sizeOf_child (by assumption)

/-- The range of a child, which is stored under its high address. -/
def range (e : BitVec w × ContainedRangeMap w ε) : Extent (BitVec w) ε :=
  ⟨e.2.base, e.1, e.2.entry⟩

/-- The ranges stored below a node whose children are `l`. -/
inductive Stores : List (BitVec w × ContainedRangeMap w ε) → Extent (BitVec w) ε → Prop
  | child {l} {e : BitVec w × ContainedRangeMap w ε} (h : e ∈ l) : Stores l (range e)
  | inner {l} {e : BitVec w × ContainedRangeMap w ε} {r} (h : e ∈ l) (hr : Stores e.2.map r) :
      Stores l r

/-- The ranges stored in a map. -/
def ranges (m : ContainedRangeMap w ε) : Set (Extent (BitVec w) ε) := {r | Stores m.map r}

/-- Children are apart, and what is below one is strictly within it. -/
inductive Valid : List (BitVec w × ContainedRangeMap w ε) → Prop
  | mk {l} (sorted : Sorted l) (ordered : ∀ e ∈ l, e.2.base ≤ e.1)
      (apart : ∀ e ∈ l, ∀ f ∈ l, e.1 < f.1 → e.1 < f.2.base)
      (within : ∀ e ∈ l, ∀ r, Stores e.2.map r → r.Within (range e) ∧ ¬ r.SameEnds (range e))
      (children : ∀ e ∈ l, Valid e.2.map) : Valid l

/-- A size and a base a range can be stored with. -/
def Fits (base size : BitVec w) : Prop := size ≠ 0 ∧ base ≤ base + size - 1

instance (base size : BitVec w) : Decidable (Fits base size) := inferInstanceAs (Decidable (_ ∧ _))

inductive Call (w : ℕ) (ε : Type*)
  | storeRange (base size : BitVec w) (entry : ε)
  | clear

def call (m : ContainedRangeMap w ε) : Call w ε → ContainedRangeMap w ε
  | .storeRange base size entry => (m.storeRange base size entry).2
  | .clear => m.clear

/-- A sequence of calls on a new map. -/
def run (default : ε) (calls : List (Call w ε)) : ContainedRangeMap w ε :=
  calls.foldl call (new default)

/-- The arguments of a call of `StoreRange`, as the range it is for. -/
def stored (c : BitVec w × BitVec w × ε) : Extent (BitVec w) ε :=
  ⟨c.1, c.1 + c.2.1 - 1, c.2.2⟩

def storeCall (c : BitVec w × BitVec w × ε) : Call w ε := .storeRange c.1 c.2.1 c.2.2

end ContainedRangeMap

end Xrash
