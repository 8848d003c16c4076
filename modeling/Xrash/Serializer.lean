import Xrash.Lib.Bytes
import Xrash.AddressMap
import Xrash.ContainedRangeMap

/-!
# Map serializers

The serializers of the processor write a map as a block of bytes: the number of nodes, the offset of
each value from the start of the block, the keys, and the values.
-/

namespace Xrash

/-- How the host stores a `uint32_t` and the keys of a map. Those of a map of ranges are addresses,
and its other addresses are stored in the same way. -/
structure Abi (κ : Type) where
  u32 : WordRepr 32
  key : MemRepr κ

/-- A little endian host, with addresses of `n` bytes for the keys. -/
def Abi.littleEndian (n : ℕ) : Abi (BitVec (8 * n)) :=
  ⟨LittleEndian.repr 4, (LittleEndian.repr n).toMemRepr⟩

/-- An `int` is compared as the number it is. -/
instance linearOrderInt32 : LinearOrder Int32 where
  le_refl := Int32.le_refl
  le_trans _ _ _ := Int32.le_trans
  le_antisymm _ _ := Int32.le_antisymm
  le_total := Int32.le_total
  lt_iff_le_not_ge a b := by simp only [Int32.lt_iff_toInt_lt, Int32.le_iff_toInt_le]; omega
  toDecidableLE := inferInstance
  toDecidableEq := inferInstance
  toDecidableLT := inferInstance

/-- `SimpleSerializer` of a type: how many bytes an item takes, and the bytes. Some count them in 32
bits, so the number is right for an item of less than 4 GiB. -/
structure SimpleSerializer (ε : Type*) where
  sizeOf : ε → ℕ
  write : ε → List UInt8
  sizeOf_eq : ∀ x, (write x).length < 2 ^ 32 → sizeOf x = (write x).length

namespace SimpleSerializer

def bool : SimpleSerializer Bool where
  sizeOf _ := 1
  write b := [if b then 255 else 0]
  sizeOf_eq _ _ := rfl

/-- `SimpleSerializer` of a word, which is copied. -/
def word {α : Type*} (R : MemRepr α) : SimpleSerializer α where
  sizeOf _ := R.size
  write := R.write
  sizeOf_eq x _ := (R.length_write x).symm

/-- `SimpleSerializer` of a `linked_ptr`, of which a null one takes no bytes. -/
def linkedPtr {ε : Type*} (s : SimpleSerializer ε) : SimpleSerializer (Option ε) where
  sizeOf p := p.elim 0 s.sizeOf
  write p := p.elim [] s.write
  sizeOf_eq p h := by
    cases p with
    | none => rfl
    | some x => exact s.sizeOf_eq x h

end SimpleSerializer

/-- The parts of a block after the number of nodes, as far as they are written. -/
structure Regions where
  offsets : List UInt8
  keys : List UInt8
  values : List UInt8

namespace Abi

section Keys

variable {κ : Type} {ε : Type*} (h : Abi κ) (s : SimpleSerializer ε)

def headerSize (n : ℕ) : ℕ := (1 + n) * h.u32.size

/-- One pass of the loop of `Write`, where the values begin `start` bytes into the block. -/
def writeNode (start : ℕ) (r : Regions) (key : κ) (value : List UInt8) : Regions :=
  ⟨r.offsets ++ h.u32.write (BitVec.ofNat 32 (start + r.values.length)),
    r.keys ++ h.key.write key, r.values ++ value⟩

/-- What `Write` does for a map whose nodes have these keys and the bytes of these values. -/
def writeMap (nodes : List (κ × List UInt8)) : List UInt8 :=
  let start := h.headerSize nodes.length + nodes.length * h.key.size
  let r := nodes.foldl (fun r e => h.writeNode start r e.1 e.2) ⟨[], [], []⟩
  h.u32.write (BitVec.ofNat 32 nodes.length) ++ (r.offsets ++ (r.keys ++ r.values))

variable [LinearOrder κ]

def stdMapWrite (m : SortedMap κ ε) : List UInt8 :=
  h.writeMap (m.entries.map fun e => (e.1, s.write e.2))

end Keys

/-! ## Maps of addresses -/

variable {w : ℕ} {ε : Type*} (h : Abi (BitVec w)) (s : SimpleSerializer ε)

def addressMapWrite (m : AddressMap w ε) : List UInt8 := h.stdMapWrite s m.map

/-! ## RangeMapSerializer -/

def rangeMapSizeOf (m : RangeMap w ε) : ℕ :=
  m.map.entries.foldl (fun size e => size + h.key.size + h.key.size + s.sizeOf e.2.entry)
    (h.headerSize m.map.size)

/-- The delta of a range is not written. -/
def rangeMapWrite (m : RangeMap w ε) : List UInt8 :=
  h.writeMap (m.map.entries.map fun e => (e.1, h.key.write e.2.base ++ s.write e.2.entry))

def containedWrite : ContainedRangeMap w ε → List UInt8
  | .mk b x l => h.key.write b ++ (h.u32.write (BitVec.ofNat 32 (s.sizeOf x)) ++ (s.write x ++
      h.writeMap (l.attach.map fun e => (e.1.1, containedWrite e.1.2))))
  termination_by m => m
  decreasing_by
    obtain ⟨i, hi⟩ := List.mem_iff_getElem?.1 e.2
    exact ContainedRangeMap.sizeOf_child hi

end Abi

end Xrash
