import Xrash.RangeMap

/-!
# Address maps

`AddressMap` of the processor: entries at addresses, found from any address above. The first entry
stored at an address stays.
-/

namespace Xrash

structure AddressMap (w : ℕ) (ε : Type*) where
  map : SortedMap (BitVec w) ε

namespace AddressMap

variable {w : ℕ} {ε : Type*}

def new : AddressMap w ε := ⟨.empty⟩

def store (m : AddressMap w ε) (address : BitVec w) (entry : ε) : Bool × AddressMap w ε :=
  if m.map.find address ≠ m.map.size then (false, m) else (true, ⟨m.map.insert address entry⟩)

/-- The entry, and the address it was stored at. -/
def retrieve (m : AddressMap w ε) (address : BitVec w) : Option (ε × BitVec w) :=
  let iterator := m.map.upperBound address
  if iterator = 0 then none else m.map.entries[iterator - 1]?.map fun e => (e.2, e.1)

inductive Call (w : ℕ) (ε : Type*)
  | store (address : BitVec w) (entry : ε)
  | clear

def call (m : AddressMap w ε) : Call w ε → AddressMap w ε
  | .store address entry => (m.store address entry).2
  | .clear => new

/-- A sequence of calls on a new map. -/
def run (calls : List (Call w ε)) : AddressMap w ε := calls.foldl call new

/-- The calls of `Store` so far, after one more call. -/
def record (cs : List (BitVec w × ε)) : Call w ε → List (BitVec w × ε)
  | .store address entry => cs ++ [(address, entry)]
  | .clear => []

/-- The calls of `Store` since the map was last cleared, the first one first. -/
def stores (calls : List (Call w ε)) : List (BitVec w × ε) := calls.foldl record []

end AddressMap

end Xrash
