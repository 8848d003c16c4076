import Xrash.Lib.SortedMap
import Mathlib.Data.BitVec

/-!
# Range maps

`RangeMap` of the processor: ranges of addresses that do not overlap, each stored in an ordered map
under its high address. A range that overlaps with stored ones is turned away, or one of the two is
cut, by the merge strategy. Addresses are unsigned integers of `w` bits and wrap around.
-/

namespace Xrash

instance linearOrder {w : ℕ} : LinearOrder (BitVec w) where
  le_refl := BitVec.le_refl
  le_trans _ _ _ := BitVec.le_trans
  le_antisymm _ _ := BitVec.le_antisymm
  le_total a b := Nat.le_total a.toNat b.toNat
  lt_iff_le_not_ge a b := by simp only [BitVec.lt_def, BitVec.le_def]; omega
  toDecidableLE := inferInstance
  toDecidableEq := inferInstance
  toDecidableLT := inferInstance

inductive MergeRangeStrategy
  | exclusiveRanges
  | truncateLower
  | truncateUpper
  deriving DecidableEq

/-- A range without its high address, which is the key it is stored under. -/
structure Range (w : ℕ) (ε : Type*) where
  base : BitVec w
  delta : BitVec w
  entry : ε
  deriving DecidableEq

structure RangeMap (w : ℕ) (ε : Type*) where
  mergeStrategy : MergeRangeStrategy
  map : SortedMap (BitVec w) (Range w ε)

/-- What the retrieval functions set: the entry, and the base, delta and size of its range. -/
structure Retrieved (w : ℕ) (ε : Type*) where
  entry : ε
  base : BitVec w
  delta : BitVec w
  size : BitVec w
  deriving DecidableEq

def retrieved {w : ℕ} {ε : Type*} (e : BitVec w × Range w ε) : Retrieved w ε :=
  ⟨e.2.entry, e.2.base, e.2.delta, e.1 - e.2.base + 1⟩

namespace RangeMap

variable {w : ℕ} {ε : Type*}

def new : RangeMap w ε := ⟨.exclusiveRanges, .empty⟩

def getCount (m : RangeMap w ε) : ℕ := m.map.size

def clear (m : RangeMap w ε) : RangeMap w ε := { m with map := .empty }

def retrieveRange (m : RangeMap w ε) (address : BitVec w) : Option (Retrieved w ε) :=
  match m.map.entries[m.map.lowerBound address]? with
  | none => none
  | some e => if address < e.2.base then none else some (retrieved e)

def retrieveNearestRange (m : RangeMap w ε) (address : BitVec w) : Option (Retrieved w ε) :=
  match m.retrieveRange address with
  | some r => some r
  | none =>
    let iterator := m.map.upperBound address
    if iterator = 0 then none else m.map.entries[iterator - 1]?.map retrieved

/-- `GetCount` is an `int`, and so is the index; one below zero stays at the first range, and there
is no result when that is the end of the map. -/
def retrieveRangeAtIndex (m : RangeMap w ε) (index : ℤ) : Option (Option (Retrieved w ε)) :=
  if (m.getCount : ℤ) ≤ index then some none
  else m.map.entries[index.toNat]?.map fun e => some (retrieved e)

/-- The range at iterator `it`, stored under `high`, put back with `key` and changed by `f`. -/
def replace (m : RangeMap w ε) (it : ℕ) (high key : BitVec w)
    (f : Retrieved w ε → Range w ε) : Option (RangeMap w ε) :=
  (m.retrieveRange high).map fun r => { m with map := (m.map.erase it).insert key (f r) }

/-- `StoreRangeInternal`, with a bound on the depth of its recursion: `none` when the bound is
reached, or an iterator past the end is used. -/
def storeRangeInternal : ℕ → RangeMap w ε → (base delta size : BitVec w) → ε →
    Option (Bool × RangeMap w ε)
  | 0, _, _, _, _, _ => none
  | fuel + 1, m, base, delta, size, entry =>
    let high := base + (size - 1)
    if size = 0 ∨ high < base then some (false, m)
    else
      let iteratorBase := m.map.lowerBound base
      let iteratorHigh := m.map.lowerBound high
      if iteratorBase ≠ iteratorHigh then
        -- some other range ends in the space used by this range
        match m.map.entries[iteratorBase]? with
        | none => none
        | some (otherHigh, other) =>
          match m.mergeStrategy with
          | .truncateLower =>
            if base < other.base then
              storeRangeInternal fuel m base delta (other.base - base) entry
            else if other.base < base then
              (m.replace iteratorBase otherHigh (base - 1) fun r => ⟨r.base, r.delta, r.entry⟩).bind
                fun m => storeRangeInternal fuel m base delta size entry
            else some (false, m)
          | .truncateUpper =>
            let additional := otherHigh - base + 1
            storeRangeInternal fuel m (base + additional) (delta + additional) (size - additional)
              entry
          | .exclusiveRanges => some (false, m)
      else
        match m.map.entries[iteratorHigh]? with
        | none => some (true, { m with map := m.map.insert high ⟨base, delta, entry⟩ })
        | some (otherHigh, other) =>
          if other.base ≤ high then
            -- the range above this one overlaps with it
            match m.mergeStrategy with
            | .truncateLower =>
              if base < other.base then
                storeRangeInternal fuel m base delta (other.base - base) entry
              else if other.base < base then
                (m.replace iteratorHigh otherHigh (base - 1)
                  fun r => ⟨r.base, r.delta, r.entry⟩).bind
                    fun m => storeRangeInternal fuel m base delta size entry
              else some (false, m)
            | .truncateUpper =>
              if high < otherHigh then
                let additional := high - other.base + 1
                (m.replace iteratorHigh otherHigh otherHigh
                  fun r => ⟨r.base + additional, r.delta + additional, r.entry⟩).bind
                    fun m => storeRangeInternal fuel m base delta size entry
              else some (false, m)
            | .exclusiveRanges => some (false, m)
          else some (true, { m with map := m.map.insert high ⟨base, delta, entry⟩ })

/-- `StoreRange`. Each call of `StoreRangeInternal` within it passes a stored range or cuts one. -/
def storeRange (m : RangeMap w ε) (base size : BitVec w) (entry : ε) :
    Option (Bool × RangeMap w ε) :=
  storeRangeInternal (m.getCount + 3) m base 0 size entry

/-- The stored ranges, each with its high address. -/
def ranges (m : RangeMap w ε) : Set (BitVec w × Range w ε) := {e | e ∈ m.map.entries}

/-- No range ends below its base, and each begins above those that end below its end. -/
structure Valid (m : RangeMap w ε) : Prop where
  ordered : ∀ e ∈ m.ranges, e.2.base ≤ e.1
  disjoint : ∀ e ∈ m.ranges, ∀ f ∈ m.ranges, e.1 < f.1 → e.1 < f.2.base

/-- A size and a base a range can be stored with: not empty, and not past the last address. -/
def Fits (base size : BitVec w) : Prop := size ≠ 0 ∧ base ≤ base + (size - 1)

instance (base size : BitVec w) : Decidable (Fits base size) := inferInstanceAs (Decidable (_ ∧ _))

/-- A range that reaches over the lower end of one at `a`, cut there. -/
def cutBelow (a : BitVec w) (e : BitVec w × Range w ε) : BitVec w × Range w ε :=
  if e.2.base < a ∧ a ≤ e.1 then (a - 1, e.2) else e

/-- A range that reaches over the upper end of one up to `a`, cut there. -/
def cutAbove (a : BitVec w) (e : BitVec w × Range w ε) : BitVec w × Range w ε :=
  if e.2.base ≤ a ∧ a < e.1 then
    (e.1, ⟨a + 1, e.2.delta + (a - e.2.base + 1), e.2.entry⟩)
  else e

/-- The ends up to `high` a range from `base` on can have before it reaches a stored range that
begins above its base. -/
def ends (m : RangeMap w ε) (base high : BitVec w) : Set (BitVec w) :=
  {a | base ≤ a ∧ a ≤ high ∧ ∀ e ∈ m.ranges, ¬ (base < e.2.base ∧ e.2.base ≤ a)}

/-- The bases from `base` on a range up to `high` can have above the stored ranges that end below
its end. -/
def starts (m : RangeMap w ε) (base high : BitVec w) : Set (BitVec w) :=
  {a | base ≤ a ∧ a ≤ high ∧ ∀ e ∈ m.ranges, ¬ (a ≤ e.1 ∧ e.1 < high)}

/-- The calls that change a map. -/
inductive Call (w : ℕ) (ε : Type*)
  | storeRange (base size : BitVec w) (entry : ε)
  | setMergeStrategy (strat : MergeRangeStrategy)
  | clear

/-- The arguments of a call of `StoreRange`. -/
structure Stored (w : ℕ) (ε : Type*) where
  base : BitVec w
  size : BitVec w
  entry : ε

/-- A map and the calls of `StoreRange` that returned true since it was last cleared, the latest
first. -/
structure Session (w : ℕ) (ε : Type*) where
  map : RangeMap w ε
  stored : List (Stored w ε)

def Session.call (s : Session w ε) : Call w ε → Option (Session w ε)
  | .storeRange base size entry => (s.map.storeRange base size entry).map fun r =>
    ⟨r.2, if r.1 then ⟨base, size, entry⟩ :: s.stored else s.stored⟩
  | .setMergeStrategy strat => some { s with map := { s.map with mergeStrategy := strat } }
  | .clear => some ⟨s.map.clear, []⟩

/-- A sequence of calls on a new map. -/
def run (calls : List (Call w ε)) : Option (Session w ε) := calls.foldlM Session.call ⟨new, []⟩

/-- The range is a part of the one the call was for, and its delta is what is missing below it. -/
structure PartOf (e : BitVec w × Range w ε) (c : Stored w ε) : Prop where
  entry : e.2.entry = c.entry
  base : e.2.base = c.base + e.2.delta
  above : c.base ≤ e.2.base
  below : e.1 ≤ c.base + (c.size - 1)

end RangeMap

end Xrash
