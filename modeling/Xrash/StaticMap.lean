import Xrash.Serializer

/-!
# Static maps

`StaticMap` and the maps over it look things up in a block of bytes as the serializers write it,
without unpacking it. A pointer is a position in the memory the block is in. An outer `none` is a
read outside that memory, or through a null pointer.
-/

namespace Xrash

/-- Where a block is, the number of its nodes, and where its offsets and keys begin. -/
structure StaticMap where
  mem : List UInt8
  rawData : ℕ
  numNodes : ℤ
  offsets : ℕ
  keys : ℕ

namespace StaticMap

variable {κ : Type} (h : Abi κ)

def ofRaw (mem : List UInt8) (rawData : ℕ) : Option StaticMap := do
  let n ← h.u32.readAt mem rawData
  return ⟨mem, rawData, n.toInt, rawData + h.u32.size,
    (rawData + (1 + n.toInt) * h.u32.size).toNat⟩

variable [LinearOrder κ] [Zero κ]

/-- `DefaultCompare`. -/
def compare (k1 k2 : κ) : ℤ := if k1 < k2 then -1 else if k1 = k2 then 0 else 1

variable (m : StaticMap)

def getKeyAtIndex (index : ℤ) : Option κ :=
  if index < 0 ∨ m.numNodes ≤ index then some 0
  else h.key.readAt m.mem (m.keys + index.toNat * h.key.size)

/-- The loop `find`, `lower_bound` and `upper_bound` share: `hit` is the index they return for a key
that is there, and `miss` the one for where the loop ends. -/
def search (hit miss : ℕ → ℤ) (key : κ) (first last : ℕ) : Option ℤ :=
  if first < last then
    let middle := first + (last - first) / 2
    match m.getKeyAtIndex h middle with
    | none => none
    | some k =>
      if compare key k = 0 then some (hit middle)
      else if compare key k < 0 then search hit miss key first middle
      else search hit miss key (middle + 1) last
  else some (miss first)
  termination_by last - first

def find (key : κ) : Option ℤ :=
  m.search h (fun middle => middle) (fun _ => m.numNodes) key 0 m.numNodes.toNat

def lowerBound (key : κ) : Option ℤ :=
  m.search h (fun middle => middle) (fun first => first) key 0 m.numNodes.toNat

def upperBound (key : κ) : Option ℤ :=
  m.search h (fun middle => middle + 1) (fun first => first) key 0 m.numNodes.toNat

/-! ## Iterators -/

def IsValid (it : ℤ) : Prop := 0 ≤ it ∧ it ≤ m.numNodes

instance (it : ℤ) : Decidable (m.IsValid it) := inferInstanceAs (Decidable (_ ∧ _))

/-- `operator--`. -/
def decrement (it : ℤ) : ℤ :=
  if ¬ m.IsValid it then it else if it - 1 < 0 then 0 else it - 1

def getKey (it : ℤ) : Option κ :=
  if ¬ m.IsValid it then none
  else h.key.readAt m.mem (m.keys + it.toNat * h.key.size)

/-- `GetValuePtr`. -/
def getValuePtr (it : ℤ) : Option ℕ :=
  if ¬ m.IsValid it then none
  else (h.u32.readAt m.mem (m.offsets + it.toNat * h.u32.size)).map fun o => m.rawData + o.toNat

/-! ## Validation -/

/-- The test of one pass of the loop of `ValidateInMemoryStructure`. -/
def nodeIncreases (nodeIndex : ℕ) : Option Bool := do
  let offset ← h.u32.readAt m.mem (m.offsets + nodeIndex * h.u32.size)
  let before ← h.u32.readAt m.mem (m.offsets + (nodeIndex - 1) * h.u32.size)
  if offset ≤ before then return false
  let key ← m.getKeyAtIndex h nodeIndex
  let keyBefore ← m.getKeyAtIndex h ((nodeIndex : ℤ) - 1)
  return decide (¬ compare key keyBefore ≤ 0)

/-- The loop from `nodeIndex` on, for `n` more nodes. -/
def nodesIncrease (nodeIndex : ℕ) : ℕ → Option Bool
  | 0 => some true
  | n + 1 => do
    if ← m.nodeIncreases h nodeIndex then nodesIncrease (nodeIndex + 1) n else return false

def validateInMemoryStructure : Option Bool := do
  let numNodes ← (h.u32.readAt m.mem m.rawData).map BitVec.toInt
  if numNodes < 0 then return false
  if m.numNodes ≠ 0 then
    let firstOffset := h.u32.size * (m.numNodes.toNat + 1) + h.key.size * m.numNodes.toNat
    if 0xffffffff < firstOffset then return false
    let offset ← h.u32.readAt m.mem m.offsets
    if offset ≠ BitVec.ofNat 32 firstOffset then return false
  m.nodesIncrease h 1 (m.numNodes.toNat - 1)

end StaticMap

/-! ## Static address maps and range maps -/

variable {w : ℕ} (h : Abi (BitVec w))

/-- `StaticAddressMap::Retrieve`: where the entry is, and the address it was stored at. -/
def StaticMap.retrieve (m : StaticMap) (address : BitVec w) : Option (Option (ℕ × BitVec w)) := do
  let iterator ← m.upperBound h address
  if iterator = 0 then return none
  let iterator := m.decrement iterator
  return some (← m.getValuePtr h iterator, ← m.getKey h iterator)

/-- What the retrieval functions of `StaticRangeMap` set: where the entry is, and the base and the
size of its range. -/
structure StaticRetrieved (w : ℕ) where
  entry : ℕ
  base : BitVec w
  size : BitVec w
  deriving DecidableEq

namespace StaticRangeMap

variable (m : StaticMap)

/-- The range at an iterator: its base comes first, then the entry. -/
def retrieved (it : ℤ) : Option (StaticRetrieved w) := do
  let range ← m.getValuePtr h it
  let base ← h.key.readAt m.mem range
  let key ← m.getKey h it
  return ⟨range + h.key.size, base, key - base + 1⟩

def retrieveRange (address : BitVec w) : Option (Option (StaticRetrieved w)) := do
  let iterator ← m.lowerBound h address
  if iterator = m.numNodes then return none
  let range ← m.getValuePtr h iterator
  if address < (← h.key.readAt m.mem range) then return none
  return some (← retrieved h m iterator)

def retrieveNearestRange (address : BitVec w) : Option (Option (StaticRetrieved w)) := do
  match ← retrieveRange h m address with
  | some r => return some r
  | none =>
    let iterator ← m.upperBound h address
    if iterator = 0 then return none
    return some (← retrieved h m (m.decrement iterator))

def retrieveRangeAtIndex (index : ℤ) : Option (Option (StaticRetrieved w)) := do
  if m.numNodes ≤ index then return none
  return some (← retrieved h m index)

end StaticRangeMap

/-! ## Static contained range maps -/

/-- A node in memory: its base, the size and the place of its entry, which is null for an entry of
no bytes, and its map. -/
structure StaticContainedRangeMap (w : ℕ) where
  base : BitVec w
  entrySize : BitVec 32
  entryPtr : Option ℕ
  map : StaticMap

namespace StaticContainedRangeMap

/-- The constructor, for the node at a position of a block. -/
def ofRaw (mem : List UInt8) (pos : ℕ) : Option (StaticContainedRangeMap w) := do
  let base ← h.key.readAt mem pos
  let entrySize ← h.u32.readAt mem (pos + h.key.size)
  let entry := pos + h.key.size + h.u32.size
  let map ← StaticMap.ofRaw h mem (entry + entrySize.toNat)
  return ⟨base, entrySize, if entrySize = 0 then none else some entry, map⟩

/-- `RetrieveRange` at the node at `pos`, with a bound on the depth of its recursion. -/
def retrieveRange (mem : List UInt8) : ℕ → ℕ → BitVec w → Option (Option (Option ℕ))
  | 0, _, _ => none
  | fuel + 1, pos, address => do
    let m ← ofRaw h mem pos
    let iterator ← m.map.lowerBound h address
    if iterator = m.map.numNodes then return none
    let child ← m.map.getValuePtr h iterator
    let childMap ← ofRaw h mem child
    if address < childMap.base then return none
    match ← retrieveRange mem fuel child address with
    | some entry => return some entry
    | none => return some childMap.entryPtr

end StaticContainedRangeMap

end Xrash
